import Intent.Old.Lexer
import Mathlib.Algebra.BigOperators.Group.Finset.Basic

/-!
# What the scanners of the lexer do

One specification for each member function, in two parts. The first is about positions: which
bytes a scanner moves over, and where it leaves the token. The second is about indentation,
which four of the scanners change, because they look over line breaks: `Look` says what the
indent of one line does to the stack of indents, and `Looks` composes the lines that one token
looks at.

A line that goes deeper ends the token that looks at it (`Looks.keep` has a line that leaves
`total_indent_width` as it was), so that at most one indent is ever pending.

`advance_step` puts the specifications together. `Step` is everything one call of `advance`
can do on a terminated text, and later results are inductions over it.
-/

namespace Intent.Old

/-! ### Indentation -/

/-- The number of open indents. -/
def Indentation.depth (s : Indentation) : ℕ :=
  if s.lastStackInsertIdx = noIndentYet then 0 else s.lastStackInsertIdx

/-- What the indent of a line, of width `w`, does: nothing, a push, or a request for
dedents. -/
inductive Look (s : Indentation) (w : ℕ) : Indentation → Prop where
  | level : w = s.totalIndentWidth → Look s w s
  | deeper {s' : Indentation} : s.totalIndentWidth < w → s.depth + 1 < indentStackSize →
      s'.totalIndentWidth = w → s'.indentDedentDelta = 1 → s'.lastStackInsertIdx = s.depth + 1 →
      s'.indentStack (s.depth + 1) = UInt8.ofNat (w - s.totalIndentWidth) →
      (∀ i, 1 ≤ i → i ≤ s.depth → s'.indentStack i = s.indentStack i) → Look s w s'
  | shallower : w < s.totalIndentWidth →
      Look s w (s.request ((s.totalIndentWidth : ℤ) - w))

/-- At most one line was looked at. -/
def LookedAt (s : Indentation) (es : List Event) (s' : Indentation) : Prop :=
  (es = [] ∧ s' = s) ∨
    ∃ w, es = [.lineIndent w s.totalIndentWidth s.lastStackInsertIdx] ∧ Look s w s'

/-- The lines that a token looks at: none but the last opens an indent. -/
inductive Looks : Indentation → List Event → Indentation → Prop where
  | last {s s' : Indentation} {es : List Event} : LookedAt s es s' → Looks s es s'
  | keep {s s₁ s' : Indentation} {es es' : List Event} : LookedAt s es s₁ →
      s₁.totalIndentWidth = s.totalIndentWidth → Looks s₁ es' s' → Looks s (es ++ es') s'
  | comment {s s' : Indentation} {es : List Event} (q : ℕ) : Looks s es s' →
      Looks s (.commentLine q :: es) s'

/-- There is room on `indent_stack` for what the line does. -/
def Event.Room : Event → Prop
  | .lineIndent w total idx => total < w → idx = noIndentYet ∨ idx + 1 < indentStackSize
  | _ => True

theorem Looks.refl (s : Indentation) : Looks s [] s := .last (.inl ⟨rfl, rfl⟩)

theorem LookedAt.room {s s' : Indentation} {es : List Event} (h : LookedAt s es s') :
    ∀ e ∈ es, e.Room := by
  intro e he
  obtain ⟨rfl, -⟩ | ⟨w, rfl, hw⟩ := h
  · cases he
  · rw [List.mem_singleton.mp he]
    intro hlt
    cases hw with
    | level h => omega
    | deeper h hd =>
      unfold Indentation.depth at hd
      split_ifs at hd with hi
      · exact .inl hi
      · exact .inr hd
    | shallower h => omega

/-- A call that returns had room for every line. -/
theorem Looks.room {s s' : Indentation} {es : List Event} (h : Looks s es s') :
    ∀ e ∈ es, e.Room := by
  induction h with
  | last h => exact h.room
  | keep h _ _ ih =>
    intro e he
    rcases List.mem_append.mp he with he | he
    · exact h.room e he
    · exact ih e he
  | comment q _ ih =>
    intro e he
    rcases List.mem_cons.mp he with rfl | he
    · trivial
    · exact ih e he

/-! ### Positions -/

/-- The byte at `k` is whitespace of the text. -/
def Gap (txt : Text) (k : ℕ) : Prop := txt[k]?.any isWhitespace = true

section Positions

variable {txt : Text} {i j k p q : ℕ}

theorem Gap.of_any {f : UInt8 → Bool} (hf : ∀ c, f c = true → isWhitespace c = true)
    (h : txt[k]?.any f = true) : Gap txt k := by
  unfold Gap
  cases hk : txt[k]? with
  | none => simp [hk] at h
  | some c =>
    rw [hk, Option.any_some] at h
    exact hf c h

theorem Gap.of_spaceOrTab (h : txt[k]?.any isSpaceOrTab = true) : Gap txt k :=
  .of_any (fun c hc => by simp [isWhitespace, hc]) h

theorem Gap.of_lineBreak (h : txt[k]?.any isLineBreak = true) : Gap txt k :=
  .of_any (fun c hc => by simp [isWhitespace, hc]) h

theorem lt_length_of_any {f : UInt8 → Bool} (h : txt[k]?.any f = true) : k < txt.length := by
  by_contra hk
  rw [List.getElem?_eq_none (Nat.le_of_not_lt hk)] at h
  simp at h

theorem scanSpacesAndTabs_le (txt : Text) (h : p ≤ txt.length) :
    scanSpacesAndTabs txt p ≤ txt.length :=
  scanWhile_le h

theorem le_scanSpacesAndTabs (txt : Text) (p : ℕ) : p ≤ scanSpacesAndTabs txt p :=
  le_scanWhile _ _ _

theorem gap_of_lt_scanSpacesAndTabs (hp : p ≤ k) (hk : k < scanSpacesAndTabs txt p) :
    Gap txt k :=
  .of_spaceOrTab (of_lt_scanWhile hp hk)

theorem lt_consumeLineBreak (txt : Text) (p : ℕ) : p < consumeLineBreak txt p := by
  unfold consumeLineBreak
  split_ifs <;> omega

theorem consumeLineBreak_le (txt : Text) (h : p < txt.length) :
    consumeLineBreak txt p ≤ txt.length := by
  unfold consumeLineBreak
  split_ifs with hc
  · have := (List.getElem?_eq_some_iff.mp hc.2).1
    omega
  · omega

/-- A line break is one byte, or a CR and an LF. -/
theorem gap_of_lt_consumeLineBreak (hp : txt[p]?.any isLineBreak = true) (hpk : p ≤ k)
    (hk : k < consumeLineBreak txt p) : Gap txt k := by
  rcases Nat.eq_or_lt_of_le hpk with rfl | hlt
  · exact .of_lineBreak hp
  · unfold consumeLineBreak at hk
    split_ifs at hk with hc
    · obtain rfl : k = p + 1 := by omega
      refine .of_lineBreak ?_
      rw [hc.2]
      decide
    · omega

end Positions

/-! ### After a line break -/

section Lines

variable {txt : Text} {m : Lexer}

/-- The faults of a scanner: a line had no room on the stack. -/
def Overflows (_ : Fault) (es : List Event) (_ : Lexer) : Prop := ∃ e ∈ es, ¬ e.Room

/-- Earlier events do not undo a fault. -/
theorem Overflows.append {f : Fault} {es : List Event} (h : Overflows f es m) (es₀ : List Event) :
    Overflows f (es₀ ++ es) m := by
  obtain ⟨e, he, hroom⟩ := h
  exact ⟨e, List.mem_append_right es₀ he, hroom⟩

/-- **The indent of a line.** -/
theorem lookAtIndent_spec (endOfIndent : ℕ) :
    (lookAtIndent txt endOfIndent).wp m
      (fun _ es m' => LookedAt m.toIndentation es m'.toIndentation ∧ m'.t = m.t ∧
        m'.p = m.p)
      Overflows fun _ => False := by
  set w := getIndentWidth txt m.lineBegin endOfIndent with hw
  have hidx : (m.openStack (txt.getD m.lineBegin 0)).lastStackInsertIdx =
      m.toIndentation.depth := by
    unfold Indentation.openStack Indentation.depth
    split_ifs <;> rfl
  have hstack : ∀ i, 1 ≤ i →
      (m.openStack (txt.getD m.lineBegin 0)).indentStack i = m.indentStack i := by
    intro i hi
    unfold Indentation.openStack
    split_ifs
    · exact Function.update_of_ne (by omega) _ _
    · rfl
  have htotal : (m.openStack (txt.getD m.lineBegin 0)).totalIndentWidth =
      m.totalIndentWidth := by
    unfold Indentation.openStack
    split_ifs <;> rfl
  simp only [lookAtIndent, pushIndent, Gen.wp_bind, Gen.wp_get, Gen.wp_emit, Gen.wp_ite,
    Gen.wp_modify, Gen.wp_raise, Gen.wp_pure, List.nil_append, List.append_nil, ← hw]
  refine ⟨fun hdeep => ⟨fun hroom => ?_, fun hroom => ?_⟩,
    fun hle => ⟨fun hsh => ?_, fun heq => ?_⟩⟩
  · rw [hidx] at hroom
    refine ⟨.inr ⟨w, rfl, .deeper hdeep hroom ?_ rfl ?_ ?_ ?_⟩, trivial, trivial⟩
    · simp only [Indentation.push]
      rw [htotal, Nat.add_sub_cancel' hdeep.le]
    · simp only [Indentation.push]
      rw [hidx]
    · simp only [Indentation.push]
      rw [hidx, Function.update_self]
    · intro i hi hle
      simp only [Indentation.push]
      rw [hidx, Function.update_of_ne (by omega), hstack i hi]
  · refine ⟨_, List.mem_singleton.mpr rfl, fun hr => hroom ?_⟩
    rw [hidx]
    unfold Indentation.depth
    split_ifs with hno
    · decide
    · exact (hr hdeep).resolve_left hno
  · exact ⟨.inr ⟨w, rfl, .shallower hsh⟩, trivial, trivial⟩
  · exact ⟨.inr ⟨w, rfl, .level (by omega)⟩, trivial, trivial⟩

/-- What `scan_beginning_of_line` does: it returns an address `r` with nothing but whitespace
before it, and looks at no more than one line. -/
structure Crossed (txt : Text) (m : Lexer) (r : ℕ) (es : List Event) (m' : Lexer) : Prop where
  t_eq : m'.t = m.t
  p_le : m.p ≤ m'.p
  p_le_stop : m'.p ≤ r
  stop_le : r ≤ max m.p txt.length
  gap : ∀ k, m.p ≤ k → k < r → Gap txt k
  looked : LookedAt m.toIndentation es m'.toIndentation

theorem scanLines_spec (fuel : ℕ) (hfuel : txt.length - m.p < fuel) :
    (scanLines txt fuel).wp m (fun r es m' => Crossed txt m r es m') Overflows
      fun _ => False := by
  induction fuel generalizing m with
  | zero => omega
  | succ fuel ih =>
    simp only [scanLines, Gen.wp_bind, Gen.wp_get, Gen.wp_ite, Gen.wp_modify, Gen.wp_pure,
      List.nil_append, List.append_nil]
    refine ⟨fun hp => ?_, fun hp =>
      ⟨rfl, le_rfl, le_rfl, le_max_left _ _, fun k _ _ => by omega, .inl ⟨rfl, rfl⟩⟩⟩
    have hle := le_scanSpacesAndTabs txt m.p
    have hge := scanSpacesAndTabs_le txt hp.le
    refine ⟨fun hend => ?_, fun hend => ⟨fun hbreak => ?_, fun hbreak => ?_⟩⟩
    · refine ⟨rfl, le_rfl, hp.le, le_max_right _ _, fun k hk hk' => ?_, .inl ⟨rfl, rfl⟩⟩
      exact gap_of_lt_scanSpacesAndTabs hk (by rwa [hend])
    · -- an empty line: the rest is crossed from the line break on
      have hlt := lt_consumeLineBreak txt (scanSpacesAndTabs txt m.p)
      refine (ih ?fuel).imp (fun r es m' h => ?_) (fun _ _ _ h => h) fun _ h => h
      case fuel =>
        change txt.length - consumeLineBreak txt _ < fuel
        omega
      have hcl := consumeLineBreak_le txt (lt_length_of_any hbreak)
      have hp_le : consumeLineBreak txt _ ≤ m'.p := h.p_le
      have hstop : r ≤ max (consumeLineBreak txt _) txt.length := h.stop_le
      refine ⟨h.t_eq, by omega, h.p_le_stop, by omega, fun k hk hk' => ?_,
        h.looked⟩
      rcases Nat.lt_or_ge k (scanSpacesAndTabs txt m.p) with h₁ | h₁
      · exact gap_of_lt_scanSpacesAndTabs hk h₁
      rcases Nat.lt_or_ge k (consumeLineBreak txt (scanSpacesAndTabs txt m.p)) with h₂ | h₂
      · exact gap_of_lt_consumeLineBreak hbreak h₁ h₂
      · exact h.gap k h₂ hk'
    · refine (lookAtIndent_spec _).imp (fun _ es m' h => ?_) (fun _ _ _ h => h) fun _ h => h
      obtain ⟨hlook, ht, hp'⟩ := h
      refine ⟨ht, ?_, hp'.le, by omega, fun k hk hk' => gap_of_lt_scanSpacesAndTabs hk hk',
        hlook⟩
      rw [hp']
      exact hle

/-- **The beginning of a line.** -/
theorem scanBeginningOfLine_spec :
    (scanBeginningOfLine txt).wp m (fun r es m' => Crossed txt m r es m') Overflows
      fun _ => False :=
  scanLines_spec _ (by omega)

/-- What `next_line_continues` does: it leaves `p` behind the line break, and where the next
line continues also behind its three dots, with the same indents open. -/
structure Continued (txt : Text) (m : Lexer) (b : ℕ) (r : Bool) (es : List Event)
    (m' : Lexer) : Prop where
  t_eq : m'.t = m.t
  le_p : b ≤ m'.p
  p_le : m'.p ≤ max b txt.length
  looked : LookedAt m.toIndentation es m'.toIndentation
  p_lt : r = true → m'.p < txt.length
  total_eq : r = true → m'.totalIndentWidth = m.totalIndentWidth

/-- **Continuation lines.** -/
theorem nextLineContinues_spec (b : ℕ) :
    (nextLineContinues txt b).wp m (fun r es m' => Continued txt m b r es m') Overflows
      fun _ => False := by
  simp only [nextLineContinues, Gen.wp_bind, Gen.wp_get, Gen.wp_ite, Gen.wp_modify, Gen.wp_pure,
    List.nil_append, List.append_nil]
  refine scanBeginningOfLine_spec.imp (fun next es m' h => ?_) (fun _ _ _ h => h) fun _ h => h
  have hle : b ≤ m'.p := h.p_le
  have hstop : next ≤ max b txt.length := h.stop_le
  have hnext := h.p_le_stop
  refine ⟨fun _ => ?_, fun hline => ⟨fun _ => ?_, fun hdots => ?_⟩⟩
  · exact ⟨h.t_eq, hle, by omega, h.looked, by simp, by simp⟩
  · exact ⟨h.t_eq, hle, by omega, h.looked, by simp, by simp⟩
  · push Not at hline hdots
    refine ⟨h.t_eq, ?_, ?_, h.looked, fun _ => hdots.1, fun _ => hline.2.symm⟩
    · change b ≤ next + 3
      omega
    · change next + 3 ≤ _
      omega

end Lines

/-! ### Numbers -/

section Numbers

variable {txt : Text} {v : View} {p q : ℕ}

theorem digitRun_le (digit : UInt8 → Option ℕ) (s : Text) : (digitRun digit s).2 ≤ s.length := by
  induction s with
  | nil => exact le_rfl
  | cons c s ih =>
    unfold digitRun
    split
    · exact Nat.succ_le_succ ih
    · split_ifs
      · exact Nat.succ_le_succ ih
      · exact Nat.zero_le _

theorem digitRun_pos {digit : UInt8 → Option ℕ} {c : UInt8} {s : Text}
    (h : (digit c).isSome = true) : 0 < (digitRun digit (c :: s)).2 := by
  obtain ⟨d, hd⟩ := Option.isSome_iff_exists.mp h
  simp [digitRun, hd]

theorem add_digitRun_le (txt : Text) (digit : UInt8 → Option ℕ) (h : p ≤ txt.length) :
    p + (digitRun digit (txt.drop p)).2 ≤ txt.length := by
  have := digitRun_le digit (txt.drop p)
  rw [List.length_drop] at this
  omega

theorem scanDecimalNumber_le (h : p < txt.length) :
    p ≤ (scanDecimalNumber txt p).2.2 ∧ (scanDecimalNumber txt p).2.2 ≤ txt.length := by
  unfold scanDecimalNumber
  dsimp only
  generalize hq : (if txt[p]? = some (ch '+') ∨ txt[p]? = some (ch '-') then p + 1 else p) = q
  have hpq : p ≤ q ∧ q ≤ txt.length := by
    rw [← hq]
    split_ifs <;> omega
  have := add_digitRun_le txt (digitBelow 10) hpq.2
  unfold scanDecimalDigitsPreRadix scanDigits
  dsimp only
  omega

/-- The types that `advance` itself assigns, without a scanner. -/
def TokenType.structural (type : TokenType) : Bool :=
  type == .none || type == .indent || type == .dedent

/-- The bounds that every scanner keeps: the token covers `[p, stop)`, and its type is one of a
scanner. -/
def Scanned.Within (s : Scanned) (p n : ℕ) : Prop :=
  p ≤ s.stop ∧ s.stop ≤ n ∧ s.type.structural = false

theorem finishNumber_within (txt : Text) (negative : Bool) (whole : UInt64)
    (significand : Option (List ℕ × UInt64)) (h : q ≤ txt.length) :
    (finishNumber txt negative whole significand q).Within q txt.length := by
  unfold finishNumber
  split_ifs with he
  · obtain ⟨h₁, h₂⟩ := scanDecimalNumber_le he.1
    exact ⟨(Nat.le_succ q).trans h₁, h₂, rfl⟩
  · cases significand with
    | some s => exact ⟨le_rfl, h, rfl⟩
    | none => exact ⟨le_rfl, h, rfl⟩

theorem getPrefixedNumber_within {negative : Bool} {s : Scanned}
    (hs : getPrefixedNumber txt q negative = some s) : s.Within (q + 1) txt.length := by
  unfold getPrefixedNumber at hs
  dsimp only at hs
  split_ifs at hs with hq h₁ h₂ h₃
  all_goals
    obtain rfl := Option.some.inj hs
    refine ⟨by dsimp only; omega, ?_, rfl⟩
    exact add_digitRun_le _ _ (by omega)

/-- A decimal number takes its first digit, or its radix. -/
theorem getDecimalNumber_within (negative floatingPoint : Bool) (hq : q < txt.length)
    (hdigit : floatingPoint = false → txt[q]?.any isdigit = true) :
    (getDecimalNumber txt negative floatingPoint q).Within (q + 1) txt.length := by
  obtain ⟨k, whole, hk, hfirst, heq⟩ : ∃ k whole, q + k ≤ txt.length ∧
      (floatingPoint = false → 0 < k) ∧
      (if floatingPoint then (0, 0) else scanDecimalDigitsPreRadix (txt.drop q)) = (whole, k) := by
    cases floatingPoint with
    | true => exact ⟨0, 0, hq.le, by simp, rfl⟩
    | false =>
      refine ⟨_, _, add_digitRun_le _ (digitBelow 10) hq.le, fun _ => ?_, rfl⟩
      rw [List.drop_eq_getElem_cons hq]
      refine digitRun_pos ?_
      have hd := hdigit rfl
      rw [List.getElem?_eq_getElem hq, Option.any_some] at hd
      revert hd
      generalize txt[q] = c
      intro hd
      unfold digitBelow
      have hlt : c.toNat - (ch '0').toNat < 10 := by
        simp only [isdigit, Bool.and_eq_true, decide_eq_true_eq] at hd
        have h9 : c.toNat ≤ 57 := UInt8.le_iff_toNat_le.mp hd.2
        have : (ch '0').toNat = 48 := rfl
        omega
      simp [hd, hlt]
  unfold getDecimalNumber
  rw [heq]
  dsimp only
  split_ifs with hdot
  · have hlt : q + k < txt.length := by
      rcases hdot with hf | hd
      · subst hf
        obtain ⟨-, rfl⟩ := Prod.mk.inj heq
        exact hq
      · exact (List.getElem?_eq_some_iff.mp hd).1
    obtain ⟨h₁, h₂⟩ := finishNumber_within _ negative whole
      (some ((scanDecimalDigitsPostRadix (txt.drop (q + k + 1))).1, whole))
      (add_digitRun_le txt (digitBelow 10) (Nat.succ_le_of_lt hlt))
    exact ⟨(by omega : q + 1 ≤ q + k + 1 + _).trans h₁, h₂⟩
  · push Not at hdot
    obtain ⟨h₁, h₂⟩ := finishNumber_within txt negative whole none hk
    have := hfirst (by simpa using hdot.1)
    exact ⟨by omega, h₂⟩

theorem View.byte_of_lt (h : p < v.text.length) : v.text[p]? = some (v.byte p) := by
  unfold View.byte
  rw [List.getElem?_eq_getElem h]
  rfl

/-- **Numbers.** A number that starts with a digit, or with a sign or a radix and a digit after
it, is not empty and stays inside of the text. -/
theorem getNumberToken_within (hp : p < v.text.length)
    (hc : isdigit (v.byte p) = true ∨
      v.text[p + 1]?.any isdigit = true ∧
        (v.byte p = ch '.' ∨ v.byte p = ch '+' ∨ v.byte p = ch '-')) :
    (getNumberToken v p).Within (p + 1) v.text.length := by
  unfold getNumberToken
  dsimp only
  generalize hq : (if v.byte p = ch '+' ∨ v.byte p = ch '-' then p + 1 else p) = q
  obtain ⟨hpq, hqlt, hdigit⟩ : p ≤ q ∧ q < v.text.length ∧
      (v.byte q ≠ ch '.' → v.text[q]?.any isdigit = true) := by
    rw [← hq]
    split_ifs with hsign
    · rcases hc with hd | ⟨hd, -⟩
      · rcases hsign with h | h
        · rw [h] at hd
          exact absurd hd (by decide)
        · rw [h] at hd
          exact absurd hd (by decide)
      · exact ⟨by omega, lt_length_of_any hd, fun _ => hd⟩
    · refine ⟨le_rfl, hp, fun hdot => ?_⟩
      rcases hc with hd | ⟨-, h | h | h⟩
      · rw [View.byte_of_lt hp]
        exact hd
      · exact absurd h hdot
      · exact absurd (.inl h) hsign
      · exact absurd (.inr h) hsign
  have grow : ∀ {s : Scanned}, s.Within (q + 1) v.text.length → s.Within (p + 1) v.text.length :=
    fun h => ⟨by have := h.1; omega, h.2⟩
  split_ifs with hdot hzero
  · exact grow (getDecimalNumber_within _ _ hqlt (by simp))
  · cases hpre : getPrefixedNumber v.text q _ with
    | none => exact grow (getDecimalNumber_within _ _ hqlt fun _ => hdigit hdot)
    | some s => exact grow (getPrefixedNumber_within hpre)
  · exact grow (getDecimalNumber_within _ _ hqlt fun _ => hdigit hdot)

end Numbers

/-! ### Tokens -/

section Tokens

variable {v : View} {txt : Text} {m : Lexer} {c : UInt8} {op : Operator}

/-- `advance` is about to look for a token at `p`, inside of the text. -/
structure Ready (txt : Text) (m : Lexer) : Prop where
  substr_eq : m.t.substr = ⟨m.p, 0⟩
  p_lt : m.p < txt.length

/-- What a scanner does: the token begins at `p` and is not empty; it stays inside of the text,
except that a comment whose last line runs to the end takes the byte after it as well. -/
structure Found (txt : Text) (m : Lexer) (es : List Event) (m' : Lexer) : Prop where
  begin_eq : m'.t.substr.begin = m.p
  lt_stop : m.p < m'.t.substr.stop
  stop_le : m'.t.substr.stop ≤ txt.length + 1
  overrun : m'.t.substr.stop = txt.length + 1 → .commentLine txt.length ∈ es
  type_eq : m'.t.type.structural = false
  looks : Looks m.toIndentation es m'.toIndentation

/-- Ending a span at an address that it does not begin after. -/
theorem Span.stop_endAt {s : Span} {q : ℕ} (h : s.begin ≤ q) : (s.endAt q).stop = q := by
  unfold Span.endAt Span.stop
  rw [if_pos h]
  exact Nat.add_sub_cancel' h

/-- The specification of a scanner, from where it ends the token. -/
theorem Ready.found {m' : Lexer} {es : List Event} {q : ℕ} (h : Ready txt m)
    (hspan : m'.t.substr = m.t.substr.endAt q) (hq : m.p < q) (hle : q ≤ txt.length + 1)
    (hover : q = txt.length + 1 → .commentLine txt.length ∈ es)
    (htype : m'.t.type.structural = false) (hlooks : Looks m.toIndentation es m'.toIndentation) :
    Found txt m es m' := by
  have hbegin : m.t.substr.begin = m.p := by rw [h.substr_eq]
  have hstop : m'.t.substr.stop = q := by
    rw [hspan]
    exact Span.stop_endAt (by omega)
  refine ⟨?_, by omega, by omega, fun h => hover (by omega), htype, hlooks⟩
  rw [hspan]
  exact hbegin

/-- A scanner that only finds a token. -/
theorem assign_spec {s : Scanned} (h : Ready txt m) (hs : s.Within (m.p + 1) txt.length) :
    (assign s).wp m (fun _ es m' => Found txt m es m') Overflows fun _ => False := by
  obtain ⟨h₁, h₂, h₃⟩ := hs
  simp only [assign, Gen.wp_modify]
  exact h.found rfl h₁ (by omega) (fun _ => by omega) h₃ (Looks.refl _)

/-- What the table of operators is checked for. -/
private theorem operators_ok : ∀ r ∈ operators, r.2.plain.structural = false ∧
    (∀ l ∈ r.2.longer, l.2.structural = false) ∧
    (r.2.numeric = true → r.1 = '.' ∨ r.1 = '+' ∨ r.1 = '-') := by
  decide

theorem operatorAt_ok (h : operatorAt c = some op) : op.plain.structural = false ∧
    (∀ l ∈ op.longer, l.2.structural = false) ∧
    (op.numeric = true → c = ch '.' ∨ c = ch '+' ∨ c = ch '-') := by
  obtain ⟨r, hr, rfl⟩ := Option.map_eq_some_iff.mp h
  obtain ⟨h₁, h₂, h₃⟩ := operators_ok r (List.mem_of_find?_eq_some hr)
  have hc : ch r.1 = c := by simpa using List.find?_some hr
  refine ⟨h₁, h₂, fun hn => ?_⟩
  rw [← hc]
  exact (h₃ hn).imp (congrArg ch) fun h => h.imp (congrArg ch) (congrArg ch)

/-- An operator is spelled inside of the text. -/
theorem spelledAt_ok (op : Operator) {p : ℕ} (hp : p < txt.length) :
    1 ≤ (op.spelledAt txt p).1 ∧ p + (op.spelledAt txt p).1 ≤ txt.length := by
  unfold Operator.spelledAt
  split
  case h_1 r hr =>
    have hspelled : slice txt (p + 1) (p + 1 + r.1.length) = bytes r.1 := by
      simpa using List.find?_some hr
    have hlen := congrArg List.length hspelled
    simp only [slice, bytes, List.length_take, List.length_drop, List.length_map] at hlen
    exact ⟨Nat.succ_le_succ (Nat.zero_le _), by dsimp only; omega⟩
  case h_2 => exact ⟨le_rfl, hp⟩

theorem spelledAt_type (hplain : op.plain.structural = false)
    (hlonger : ∀ l ∈ op.longer, l.2.structural = false) (txt : Text) (p : ℕ) :
    (op.spelledAt txt p).2.structural = false := by
  unfold Operator.spelledAt
  split
  case h_1 r hr => exact hlonger r (List.mem_of_find?_eq_some hr)
  case h_2 => exact hplain

/-- **Operators.** -/
theorem scanOperator_spec (h : Ready v.text m) (hop : operatorAt (v.byte m.p) = some op) :
    (scanOperator v op).wp m (fun _ es m' => Found v.text m es m') Overflows
      fun _ => False := by
  obtain ⟨hplain, hlonger, hnum⟩ := operatorAt_ok hop
  simp only [scanOperator, Gen.wp_bind, Gen.wp_get, Gen.wp_ite, List.nil_append]
  refine ⟨fun hn => ?_, fun _ => ?_⟩
  · exact assign_spec h (getNumberToken_within h.p_lt (.inr ⟨hn.2, hnum hn.1⟩))
  · obtain ⟨h₁, h₂⟩ := spelledAt_ok op h.p_lt
    simp only [consume, Gen.wp_modify]
    exact h.found rfl (by omega) (by omega) (fun _ => by omega)
      (spelledAt_type hplain hlonger _ _) (Looks.refl _)

theorem isPhraseByte_of_isalpha (h : isalpha c = true) : isPhraseByte c = true := by
  simp [isPhraseByte, isalnum, h]

/-- **Phrases.** -/
theorem getPhraseToken_spec (h : Ready v.text m) (hc : isalpha (v.byte m.p) = true) :
    (getPhraseToken v).wp m (fun _ es m' => Found v.text m es m') Overflows
      fun _ => False := by
  have hp := h.p_lt
  set q := scanWhile (fun i => v.text[i]?.any isPhraseByte) m.p v.text.length with hq
  have hlt : m.p < q := by
    have hfirst : v.text[m.p]?.any isPhraseByte = true := by
      rw [View.byte_of_lt hp]
      exact isPhraseByte_of_isalpha hc
    rw [hq, scanWhile_of_true hp hfirst]
    exact le_scanWhile _ _ _
  have hle : q ≤ v.text.length := scanWhile_le hp.le
  have htype : ∀ b : Bool, (if b then TokenType.verb else .noun).structural = false := by decide
  simp only [getPhraseToken, Gen.wp_bind, Gen.wp_get, Gen.wp_ite, Gen.wp_modify, ← hq,
    List.nil_append, List.append_nil]
  refine ⟨fun hbreak => ?_, fun _ => ?_⟩
  · have hcl := consumeLineBreak_le _ (lt_length_of_any hbreak)
    have hlt' := lt_consumeLineBreak v.text q
    refine (nextLineContinues_spec _).imp (fun r es m' hm => ?_) (fun _ _ _ h => h) fun _ h => h
    have h₁ := hm.le_p
    have h₂ := hm.p_le
    refine h.found ?_ (q := m'.p) (by omega) (by omega) (fun _ => by omega) (htype _)
      (.last hm.looked)
    change m'.t.substr.endAt m'.p = _
    rw [hm.t_eq]
    rfl
  · exact h.found (q := q) rfl hlt (by omega) (fun _ => by omega) (htype _) (Looks.refl _)

/-- What the loop of a comment does, from the byte before the line's content on. -/
theorem commentLines_spec (fuel : ℕ) (text : Text) (hfuel : txt.length - m.p < fuel)
    (hp : m.p < txt.length) :
    (commentLines txt fuel text).wp m
      (fun _ es m' => m'.t = m.t ∧ m.p < m'.p ∧ m'.p ≤ txt.length + 1 ∧
        (m'.p = txt.length + 1 → .commentLine txt.length ∈ es) ∧
        Looks m.toIndentation es m'.toIndentation)
      Overflows fun _ => False := by
  induction fuel generalizing m text with
  | zero => omega
  | succ fuel ih =>
    simp only [commentLines, Gen.wp_bind, Gen.wp_get, Gen.wp_emit, Gen.wp_ite, Gen.wp_modify,
      Gen.wp_pure, List.nil_append, List.append_nil]
    have hge : m.p + 1 ≤ scanRestOfLine txt (m.p + 1) := le_scanWhile _ _ _
    have hle : scanRestOfLine txt (m.p + 1) ≤ txt.length := scanWhile_le hp
    change Gen.wp (nextLineContinues txt (scanRestOfLine txt (m.p + 1) + 1)) _ _ _ _
    refine (nextLineContinues_spec _).imp (fun r es m₁ hm => ⟨fun hr => ?_, fun _ => ?_⟩)
      (fun f es s h => ?_) fun _ h => h
    · have h₁ := hm.le_p
      have h₂ := hm.p_lt hr
      refine (ih _ (by omega) h₂).imp (fun _ es' m' h => ?_) (fun f es' s h => ?_) fun _ h => h
      · obtain ⟨ht, hlt, hle', hover, hlooks⟩ := h
        have hkeep := Looks.keep hm.looked (hm.total_eq hr) hlooks
        refine ⟨ht.trans hm.t_eq, by omega, hle', fun h => ?_, .comment _ hkeep⟩
        exact List.mem_append_right _ (List.mem_append_right _ (hover h))
      · exact (h.append _).append _
    · have h₁ := hm.le_p
      have h₂ := hm.p_le
      refine ⟨hm.t_eq, by omega, by omega, fun h => ?_,
        .comment _ (.last hm.looked)⟩
      have hend : scanRestOfLine txt (m.p + 1) = txt.length := by omega
      exact List.mem_cons.mpr (.inl (congrArg Event.commentLine hend.symm))
    · exact h.append _

/-- **Comments.** -/
theorem scanHash_spec (h : Ready txt m) :
    (scanHash txt).wp m (fun _ es m' => Found txt m es m') Overflows fun _ => False := by
  have hp := h.p_lt
  simp only [scanHash, getCommentToken, Gen.wp_bind, Gen.wp_get, Gen.wp_modify, List.nil_append,
    List.append_nil]
  obtain ⟨p₀, hp₀, hlt₀, hstart⟩ : ∃ p₀, m.p ≤ p₀ ∧ p₀ < txt.length ∧
      (if slice txt (m.p + 1) (m.p + 3) = bytes ['#', '#'] then m.setP (m.p + 2) else m) =
        m.setP p₀ := by
    split_ifs with hdoc
    · have hlen := congrArg List.length hdoc
      simp only [slice, bytes, List.length_take, List.length_drop, List.length_map,
        List.length_cons, List.length_nil] at hlen
      exact ⟨m.p + 2, by omega, by omega, rfl⟩
    · exact ⟨m.p, le_rfl, hp, rfl⟩
  rw [hstart]
  refine (commentLines_spec _ _ (by omega) hlt₀).imp (fun _ es m' hm => ?_) (fun _ _ _ h => h)
    fun _ h => h
  obtain ⟨ht, hlt, hle, hover, hlooks⟩ := hm
  refine h.found (q := m'.p) ?_ (hp₀.trans_lt hlt) hle hover ?_ hlooks
  · change m'.t.substr.endAt m'.p = _
    rw [ht]
    rfl
  · change (if _ then TokenType.docComment else .comment).structural = false
    split_ifs
    · rfl
    · rfl

/-- What the loop of a string does: every round moves forward. -/
theorem stringRounds_spec {quote : UInt8} (fuel : ℕ) (text : Text)
    (hfuel : v.text.length - m.p < fuel) (hp : m.p ≤ v.text.length) :
    (stringRounds v quote fuel text).wp m
      (fun _ es m' => m'.t = m.t ∧ m.p ≤ m'.p ∧ m'.p ≤ v.text.length ∧
        Looks m.toIndentation es m'.toIndentation)
      Overflows fun _ => False := by
  induction fuel generalizing m text with
  | zero => omega
  | succ fuel ih =>
    -- a round that moves `p` forward to `q` and goes on
    have round : ∀ (q : ℕ) (text' : Text), m.p < q → q ≤ v.text.length →
        (stringRounds v quote fuel text').wp (m.setP q)
          (fun _ es m' => m'.t = m.t ∧ m.p ≤ m'.p ∧ m'.p ≤ v.text.length ∧
            Looks m.toIndentation es m'.toIndentation)
          Overflows fun _ => False := by
      intro q text' hq hqn
      refine (ih text' (m := m.setP q) ?_ hqn).imp (fun _ es m' h => ?_) (fun _ _ _ h => h)
        fun _ h => h
      · change v.text.length - q < fuel
        omega
      · obtain ⟨ht, hle, hrest⟩ := h
        exact ⟨ht, hq.le.trans hle, hrest⟩
    simp only [stringRounds, Gen.wp_bind, Gen.wp_get, List.nil_append]
    cases hc : v.text[m.p]? with
    | none =>
      simp only [Gen.wp_pure]
      exact ⟨trivial, le_rfl, hp, Looks.refl _⟩
    | some c =>
      have hlt := (List.getElem?_eq_some_iff.mp hc).1
      simp only [Gen.wp_bind, Gen.wp_ite, Gen.wp_modify, Gen.wp_pure, List.nil_append,
        List.append_nil]
      refine ⟨fun _ => ⟨rfl, Nat.le_succ _, hlt, Looks.refl _⟩, fun _ => ⟨fun _ =>
        ⟨fun hseq => round _ _ hseq.2.1 hseq.2.2, fun _ => round _ _ (Nat.lt_succ_self _) hlt⟩,
        fun _ => ⟨fun hbreak => ?_, fun _ => round _ _ (Nat.lt_succ_self _) hlt⟩⟩⟩
      have hcl := consumeLineBreak_le _ hlt
      have hlt' := lt_consumeLineBreak v.text m.p
      refine (nextLineContinues_spec _).imp (fun r es m₁ hm => ⟨fun hr => ?_, fun _ => ?_⟩)
        (fun _ _ _ h => h) fun _ h => h
      · have h₁ := hm.le_p
        have h₂ := hm.p_lt hr
        refine (ih _ (m := m₁.setP (m₁.p + 1)) ?_ h₂).imp (fun _ es' m' h => ?_)
          (fun f es' s h => ?_) fun _ h => h
        · change v.text.length - (m₁.p + 1) < fuel
          omega
        · obtain ⟨ht, hle, hle', hlooks⟩ := h
          have : m₁.p + 1 ≤ m'.p := hle
          exact ⟨ht.trans hm.t_eq, by omega, hle', .keep hm.looked (hm.total_eq hr) hlooks⟩
        · exact h.append _
      · have h₁ := hm.le_p
        have h₂ := hm.p_le
        simp only [pushError, Gen.wp_modify, List.append_nil]
        exact ⟨hm.t_eq, by omega, by omega, .last hm.looked⟩

/-- **Strings.** -/
theorem scanQuote_spec (h : Ready v.text m) :
    (scanQuote v).wp m (fun _ es m' => Found v.text m es m') Overflows fun _ => False := by
  have hp := h.p_lt
  simp only [scanQuote, getStringLiteral, Gen.wp_bind, Gen.wp_get, Gen.wp_modify,
    List.nil_append, List.append_nil]
  refine (stringRounds_spec _ _ (by omega) ?_).imp (fun _ es m' hm => ?_) (fun _ _ _ h => h)
    fun _ h => h
  · exact hp
  · obtain ⟨ht, hle, hle', hlooks⟩ := hm
    have : m.p + 1 ≤ m'.p := hle
    refine h.found (q := m'.p) ?_ this (by omega) (fun _ => by omega) rfl hlooks
    change m'.t.substr.endAt m'.p = _
    rw [ht]
    rfl

/-- **The switch.** Whatever `advance` finds, it finds at `p`. -/
theorem scanToken_spec (h : Ready v.text m) :
    (scanToken v (v.byte m.p)).wp m (fun _ es m' => Found v.text m es m') Overflows
      fun _ => False := by
  have hp := h.p_lt
  unfold scanToken
  cases hop : operatorAt (v.byte m.p) with
  | some op => exact scanOperator_spec h hop
  | none =>
    simp only [Gen.wp_ite, Gen.wp_bind, Gen.wp_get, List.nil_append]
    refine ⟨fun _ => scanHash_spec h, fun _ => ⟨fun _ => scanQuote_spec h, fun _ =>
      ⟨fun ha => getPhraseToken_spec h ha, fun _ => ⟨fun hd => ?_, fun _ => ?_⟩⟩⟩⟩
    · exact assign_spec h (getNumberToken_within hp (.inl hd))
    · exact assign_spec h ⟨le_rfl, hp, rfl⟩

end Tokens

/-! ### `advance` -/

section Advance

variable {v : View} {m : Lexer}

/-- What `advance` does to the indents when it emits a dedent. -/
def Indentation.popped (s : Indentation) : Indentation :=
  if 0 < s.lastStackInsertIdx then s.pop.settle s.topWidth else s

/-- The stack index is one that `pop_indent` may be called with. -/
def Indentation.Valid (s : Indentation) : Prop :=
  s.lastStackInsertIdx < indentStackSize ∨
    s.lastStackInsertIdx = noIndentYet ∧ s.totalIndentWidth = 0 ∧ s.indentDedentDelta = 0

theorem LookedAt.valid {s s' : Indentation} {es : List Event} (h : LookedAt s es s')
    (hs : s.Valid) : s'.Valid := by
  obtain ⟨-, rfl⟩ | ⟨w, -, hw⟩ := h
  · exact hs
  · cases hw with
    | level => exact hs
    | deeper _ hroom _ _ hidx => exact .inl (hidx ▸ hroom)
    | shallower hlt =>
      unfold Indentation.request
      rcases hs with h | ⟨-, h, -⟩
      · exact .inl h
      · omega

theorem Looks.valid {s s' : Indentation} {es : List Event} (h : Looks s es s') (hs : s.Valid) :
    s'.Valid := by
  induction h with
  | last h => exact h.valid hs
  | keep h _ _ ih => exact ih (h.valid hs)
  | comment _ _ ih => exact ih hs

theorem Indentation.Valid.forced {s : Indentation} (hs : s.Valid) :
    (s.request s.totalIndentWidth).Valid := by
  unfold Indentation.request
  rcases hs with h | ⟨h₁, h₂, -⟩
  · exact .inl h
  · refine .inr ⟨h₁, h₂, ?_⟩
    dsimp only
    rw [h₂]
    decide

theorem popped_lastStackInsertIdx (s : Indentation) :
    s.popped.lastStackInsertIdx = s.lastStackInsertIdx - 1 := by
  unfold Indentation.popped
  split_ifs with h
  · simp only [Indentation.settle, Indentation.pop]
  · omega

theorem Indentation.Valid.popped {s : Indentation} (hs : s.Valid)
    (hδ : s.indentDedentDelta ≠ 0) : s.popped.Valid := by
  obtain hlt | ⟨-, -, h⟩ := hs
  · left
    rw [popped_lastStackInsertIdx]
    exact (Nat.sub_le _ _).trans_lt hlt
  · exact absurd h hδ

/-- **One call of `advance`**, on a text that ends in NUL: it emits an error, an indent or a
dedent that is pending; or it stops; or it moves over whitespace, perhaps looking at the
indent of the next line, and starts over; or it finds a token. -/
inductive Step (v : View) : Lexer → List Event → Bool → Lexer → Prop where
  | error {m : Lexer} {note : Note} : m.pendingError = some note →
      Step v m [] true
        { m.reset with
          t := { m.reset.t with type := .error, value := .text note.toText }
          pendingError := none }
  | indent {m : Lexer} : m.pendingError = none → 0 < m.indentDedentDelta →
      Step v m [] true { m.reset.setType .indent with indentDedentDelta := 0 }
  | dedent {m : Lexer} : m.pendingError = none → m.indentDedentDelta < 0 →
      Step v m [] true { m.reset.setType .dedent with toIndentation := m.toIndentation.popped }
  | stop {m : Lexer} {es : List Event} : m.pendingError = none → m.indentDedentDelta = 0 →
      (v.text.length < m.t.substr.stop ∨ v.byte m.t.substr.stop = 0) →
      (∀ e ∈ es, e.Room) → Step v m es false m.reset
  | skip {m m₁ m' : Lexer} {es es' : List Event} {b : Bool} : m.pendingError = none →
      m.indentDedentDelta = 0 → m.t.substr.stop < m₁.t.substr.stop →
      m₁.t.substr.stop ≤ v.text.length →
      (∀ k, m.t.substr.stop ≤ k → k < m₁.t.substr.stop → Gap v.text k) →
      (LookedAt m.toIndentation es m₁.toIndentation ∨
        es = [] ∧ m₁.toIndentation = m.request m.totalIndentWidth) →
      Step v m₁ es' b m' → Step v m (.dispatch m.t.substr.stop :: es ++ es') b m'
  | token {m m' : Lexer} {es : List Event} : m.pendingError = none → m.indentDedentDelta = 0 →
      m.t.substr.stop ≤ v.text.length → v.byte m.t.substr.stop ≠ 0 →
      Found v.text m.reset es m' → Step v m (.dispatch m.t.substr.stop :: es) true m'

theorem Span.beginAt_stop (s : Span) : s.beginAt s.stop = ⟨s.stop, 0⟩ := by
  unfold Span.beginAt Span.stop
  split_ifs with h₁ h₂
  · simp
  · omega
  · rcases s with ⟨b, l⟩
    obtain rfl : l = 0 := by
      dsimp only at h₁
      omega
    rfl

theorem reset_substr (m : Lexer) : m.reset.t.substr = ⟨m.t.substr.stop, 0⟩ :=
  Span.beginAt_stop _

theorem reset_p (m : Lexer) : m.reset.p = m.t.substr.stop := by
  change (m.t.substr.beginAt _).begin = _
  rw [Span.beginAt_stop]

theorem popIndent_spec {R : ℕ → List Event → Lexer → Prop}
    {E : Fault → List Event → Lexer → Prop} {H : List Event → Prop}
    (hlt : m.lastStackInsertIdx < indentStackSize)
    (hpos : 0 < m.lastStackInsertIdx → R m.topWidth [] { m with toIndentation := m.pop })
    (hzero : m.lastStackInsertIdx = 0 → R 0 [] m) : popIndent.wp m R E H := by
  unfold popIndent
  rw [Gen.wp_bind, Gen.wp_get, Gen.wp_ite]
  refine ⟨fun h => ?_, fun h => ?_⟩
  · rw [if_pos hlt, Gen.wp_bind, Gen.wp_modify, Gen.wp_pure]
    exact hpos h
  · rw [Gen.wp_pure]
    exact hzero (Nat.eq_zero_of_not_pos h)

/-- **Dedents.** -/
theorem emitDedent_spec {E : Fault → List Event → Lexer → Prop} {H : List Event → Prop}
    (hs : m.Valid) (hδ : m.indentDedentDelta < 0) :
    emitDedent.wp m
      (fun _ es m' => es = [] ∧
        m' = { m.setType .dedent with toIndentation := m.toIndentation.popped })
      E H := by
  have hlt : m.lastStackInsertIdx < indentStackSize := by
    obtain h | ⟨-, -, h⟩ := hs
    · exact h
    · omega
  unfold emitDedent
  rw [Gen.wp_bind]
  refine popIndent_spec hlt (fun hpos => ?_) fun hzero => ?_
  · rw [Gen.wp_modify, Indentation.popped, if_pos hpos]
    exact ⟨rfl, rfl⟩
  · have hsettle : m.settle 0 = m.toIndentation := by
      unfold Indentation.settle
      rw [if_neg (by push_cast; omega)]
      simp
    rw [Gen.wp_modify, Indentation.popped, if_neg (by omega), hsettle]
    exact ⟨rfl, rfl⟩

theorem reset_toIndentation (m : Lexer) : m.reset.toIndentation = m.toIndentation := rfl

/-- What `crossLineBreak` does. -/
theorem crossLineBreak_spec (h : Ready v.text m) (hc : isLineBreak (v.byte m.p) = true) :
    (crossLineBreak v.text (v.byte m.p)).wp m
      (fun _ es m' => m.p < m'.t.substr.stop ∧ m'.t.substr.stop ≤ v.text.length ∧
        (∀ k, m.p ≤ k → k < m'.t.substr.stop → Gap v.text k) ∧
        (LookedAt m.toIndentation es m'.toIndentation ∨
          es = [] ∧ m'.toIndentation = m.request m.totalIndentWidth))
      Overflows fun _ => False := by
  have hp := h.p_lt
  have hbegin : m.t.substr.begin = m.p := by rw [h.substr_eq]
  have hat := View.byte_of_lt (v := v) hp
  have hbreak : v.text[m.p]?.any isLineBreak = true := by rw [hat]; exact hc
  -- the line break that is crossed is the one that `consume_line_break` consumes
  have hcross : (if v.byte m.p = ch '\r' ∧ v.text[m.p + 1]? = some (ch '\n') then m.p + 2
      else m.p + 1) = consumeLineBreak v.text m.p := by
    unfold consumeLineBreak
    rw [hat]
    simp only [Option.some.injEq]
  have hlt := lt_consumeLineBreak v.text m.p
  have hle := consumeLineBreak_le _ hp
  have hgap : ∀ k, m.p ≤ k → k < consumeLineBreak v.text m.p → Gap v.text k :=
    fun k => gap_of_lt_consumeLineBreak hbreak
  simp only [crossLineBreak, hcross, Gen.wp_bind, Gen.wp_get, Gen.wp_modify, Gen.wp_ite,
    List.nil_append, List.append_nil]
  refine ⟨fun hin => ?_, fun hout => ?_⟩
  · refine scanBeginningOfLine_spec.imp (fun r es m' hm => ?_) (fun _ _ _ h => h) fun _ h => h
    have h₁ : consumeLineBreak v.text m.p ≤ m'.p := hm.p_le
    have h₂ := hm.p_le_stop
    have h₃ : r ≤ max (consumeLineBreak v.text m.p) v.text.length := hm.stop_le
    have ht : m'.t.substr = m.t.substr := congrArg Token.substr hm.t_eq
    have hstop : (m'.t.substr.endAt r).stop = r := by
      rw [ht]
      exact Span.stop_endAt (by omega)
    rw [hstop]
    refine ⟨by omega, by omega, fun k hk hk' => ?_, .inl hm.looked⟩
    rcases Nat.lt_or_ge k (consumeLineBreak v.text m.p) with h₄ | h₄
    · exact hgap k hk h₄
    · exact hm.gap k h₄ hk'
  · have hend : consumeLineBreak v.text m.p = v.text.length := by omega
    have hstop : ((m.setP (consumeLineBreak v.text m.p)).t.substr.endAt v.text.length).stop =
        v.text.length := by
      refine Span.stop_endAt ?_
      change m.t.substr.begin ≤ _
      omega
    rw [hstop, ← hend]
    exact ⟨hlt, le_rfl, hgap, .inr ⟨trivial, rfl⟩⟩

theorem View.byte_length (hv : v.Terminated) : v.byte v.text.length = 0 := by
  unfold View.byte
  rw [List.getElem?_eq_none le_rfl, Nat.sub_self]
  exact hv

/-- What `advance` does with the byte it finds, when nothing is pending. -/
def dispatchOn (v : View) (fuel : ℕ) (c : UInt8) : Lex Bool :=
  if c = 0 then pure false
  else if isLineBreak c then do
    crossLineBreak v.text c
    advanceWithin v fuel
  else if isSpaceOrTab c then do
    Gen.modify fun m =>
      { m with t := { m.t with substr := m.t.substr.endAt (scanSpacesAndTabs v.text (m.p + 1)) } }
    advanceWithin v fuel
  else do
    scanToken v c
    pure true

/-- With nothing pending, `advance` looks at the byte behind the last token. -/
theorem advanceWithin_dispatch {fuel : ℕ} (herr : m.pendingError = none)
    (hδ : m.indentDedentDelta = 0) (hle : m.t.substr.stop ≤ v.text.length) :
    advanceWithin v (fuel + 1) m =
      (dispatchOn v fuel (v.byte m.t.substr.stop) m.reset).after [.dispatch m.t.substr.stop] := by
  have herr' : m.reset.pendingError = none := herr
  have hδ' : m.reset.indentDedentDelta = 0 := hδ
  simp only [advanceWithin, Gen.modify_bind, Gen.get_bind, herr', hδ', lt_irrefl, gt_iff_lt,
    reset_substr, reset_p, not_lt.mpr hle, if_false, Gen.emit_bind]
  rfl

/-- With nothing pending, `advance` returns false behind the text and at a NUL. -/
theorem advanceWithin_stopped {fuel : ℕ} (hfuel : 0 < fuel) (herr : m.pendingError = none)
    (hδ : m.indentDedentDelta = 0)
    (hstop : v.text.length < m.t.substr.stop ∨ v.byte m.t.substr.stop = 0) :
    (advanceWithin v fuel m).ending = .returned false := by
  obtain ⟨fuel, rfl⟩ := Nat.exists_eq_succ_of_ne_zero hfuel.ne'
  rcases Nat.lt_or_ge v.text.length m.t.substr.stop with hlt | hle
  · have herr' : m.reset.pendingError = none := herr
    have hδ' : m.reset.indentDedentDelta = 0 := hδ
    simp only [advanceWithin, Gen.modify_bind, Gen.get_bind, herr', hδ', lt_irrefl, gt_iff_lt,
      reset_substr, hlt, if_true, if_false]
    rfl
  · have hzero : v.byte m.t.substr.stop = 0 := hstop.resolve_left (not_lt.mpr hle)
    rw [advanceWithin_dispatch herr hδ hle, dispatchOn, if_pos hzero]
    rfl

/-- Spaces and tabs in front of a token are skipped. -/
theorem Step.skip_spaces {es : List Event} {b : Bool} {m₁ m' : Lexer} (h : Step v m₁ es b m')
    (herr : m.pendingError = none) (hδ : m.indentDedentDelta = 0)
    (hlt : m.t.substr.stop < v.text.length)
    (hspace : isSpaceOrTab (v.byte m.t.substr.stop) = true)
    (hstop : m₁.t.substr.stop = scanSpacesAndTabs v.text (m.t.substr.stop + 1))
    (hkeep : m₁.toIndentation = m.toIndentation) :
    Step v m (.dispatch m.t.substr.stop :: es) b m' := by
  have h₁ := le_scanSpacesAndTabs v.text (m.t.substr.stop + 1)
  have h₂ := scanSpacesAndTabs_le v.text (p := m.t.substr.stop + 1) hlt
  refine @Step.skip v m m₁ m' [] es b herr hδ (by omega) (by omega) ?_ (.inl (.inl ⟨rfl, hkeep⟩)) h
  intro k hk hk'
  rcases Nat.eq_or_lt_of_le hk with rfl | hk
  · refine .of_spaceOrTab ?_
    rw [View.byte_of_lt hlt]
    exact hspace
  · rw [hstop] at hk'
    exact gap_of_lt_scanSpacesAndTabs hk hk'

/-- The byte found, from what is known of the calls that follow. -/
theorem dispatchOn_step {fuel : ℕ} (hv : v.Terminated) (hs : m.Valid)
    (herr : m.pendingError = none) (hδ : m.indentDedentDelta = 0)
    (hle : m.t.substr.stop ≤ v.text.length)
    (ih : ∀ m₁ : Lexer, m.t.substr.stop < m₁.t.substr.stop → m₁.t.substr.stop ≤ v.text.length →
      m₁.Valid →
      (advanceWithin v fuel).wp m₁ (fun b es m' => Step v m₁ es b m') Overflows fun _ => False) :
    (dispatchOn v fuel (v.byte m.t.substr.stop)).wp m.reset
      (fun b es m' => Step v m (.dispatch m.t.substr.stop :: es) b m') Overflows
      fun _ => False := by
  simp only [dispatchOn, Gen.wp_bind, Gen.wp_modify, Gen.wp_ite, Gen.wp_pure, List.nil_append,
    List.append_nil, reset_p]
  refine ⟨fun hzero => .stop herr hδ (.inr hzero) (by simp [Event.Room]), fun hzero => ?_⟩
  have hlt : m.t.substr.stop < v.text.length := by
    refine lt_of_le_of_ne hle fun h => hzero ?_
    rw [h, View.byte_length hv]
  have hready : Ready v.text m.reset :=
    ⟨by rw [reset_substr, reset_p], by rw [reset_p]; exact hlt⟩
  refine ⟨fun hbreak => ?_, fun _ => ⟨fun hspace => ?_, fun _ => ?_⟩⟩
  · have key := crossLineBreak_spec hready (by rwa [reset_p])
    rw [reset_p] at key
    refine key.imp (fun _ es m₁ h => ?_) (fun _ _ _ h => h) fun _ h => h
    obtain ⟨h₁, h₂, hgap, hlook⟩ := h
    have hs₁ : m₁.Valid := by
      rcases hlook with hl | ⟨-, hl⟩
      · exact hl.valid hs
      · rw [hl]
        exact hs.forced
    exact (ih m₁ h₁ h₂ hs₁).imp (fun b es' m' h => Step.skip herr hδ h₁ h₂ hgap hlook h)
      (fun _ _ _ h => h.append _) fun _ h => h
  · have h₁ := le_scanSpacesAndTabs v.text (m.t.substr.stop + 1)
    have h₂ := scanSpacesAndTabs_le v.text (p := m.t.substr.stop + 1) hlt
    have hstop : (m.reset.t.substr.endAt (scanSpacesAndTabs v.text (m.t.substr.stop + 1))).stop =
        scanSpacesAndTabs v.text (m.t.substr.stop + 1) := by
      rw [reset_substr]
      exact Span.stop_endAt (by dsimp only; omega)
    refine (ih _ ?_ ?_ ?_).imp (fun b es' m' h => ?_) (fun _ _ _ h => h) fun _ h => h
    · rw [hstop]
      exact h₁
    · rw [hstop]
      exact h₂
    · exact hs
    · exact h.skip_spaces herr hδ hlt hspace hstop rfl
  · have key := scanToken_spec hready
    rw [reset_p] at key
    exact key.imp (fun _ es m' h => .token herr hδ hle hzero h) (fun _ _ _ h => h) fun _ h => h

theorem advanceWithin_step (hv : v.Terminated) (fuel : ℕ)
    (hfuel : v.text.length - m.t.substr.stop < fuel) (hs : m.Valid) :
    (advanceWithin v fuel).wp m (fun b es m' => Step v m es b m') Overflows fun _ => False := by
  induction fuel generalizing m with
  | zero => omega
  | succ fuel ih =>
    by_cases hrest : m.pendingError = none ∧ m.indentDedentDelta = 0 ∧
        m.t.substr.stop ≤ v.text.length
    · obtain ⟨herr, hδ, hle⟩ := hrest
      rw [Gen.wp, advanceWithin_dispatch herr hδ hle, Trace.after_sat]
      exact (dispatchOn_step hv hs herr hδ hle fun m₁ h₁ h₂ hs₁ => ih (by omega) hs₁).imp
        (fun _ _ _ h => h) (fun _ _ _ h => h.append _) fun _ h => h
    · -- something is pending, or the last token ends behind the text
      simp only [advanceWithin, Gen.wp_bind, Gen.wp_get, Gen.wp_modify, List.nil_append]
      cases herr : m.pendingError with
      | some note =>
        have herr' : m.reset.pendingError = some note := herr
        simp only [herr', Gen.wp_bind, Gen.wp_modify, Gen.wp_pure, List.append_nil]
        exact .error herr
      | none =>
        have herr' : m.reset.pendingError = none := herr
        simp only [herr', Gen.wp_bind, Gen.wp_modify, Gen.wp_ite, Gen.wp_pure, List.nil_append,
          List.append_nil]
        refine ⟨fun hpos => .indent herr hpos, fun hpos => ⟨fun hneg => ?_, fun hneg => ?_⟩⟩
        · refine (emitDedent_spec (m := m.reset) hs hneg).imp (fun _ es m' h => ?_)
            (fun _ _ _ h => h) fun _ h => h
          obtain ⟨rfl, rfl⟩ := h
          exact .dedent herr hneg
        have hδ : m.indentDedentDelta = 0 := le_antisymm (not_lt.mp hpos) (not_lt.mp hneg)
        rw [reset_substr]
        exact ⟨fun hend => .stop herr hδ (.inl hend) (by simp),
          fun hend => absurd ⟨herr, hδ, not_lt.mp hend⟩ hrest⟩

/-- **One call of `advance`.** It returns, as `Step` says, unless a line overflows the stack. -/
theorem advance_step (hv : v.Terminated) (hs : m.Valid) :
    (advance v).wp m (fun b es m' => Step v m es b m') Overflows fun _ => False :=
  advanceWithin_step hv _ (by omega) hs

end Advance

end Intent.Old
