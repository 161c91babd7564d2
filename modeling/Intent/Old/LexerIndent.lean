import Intent.Old.LexerSpans
import Mathlib.Algebra.Order.BigOperators.Group.Finset

/-!
# Indents and dedents of the C++ lexer

A dedent consumes no input: `advance` emits dedents for as long as `indent_dedent_delta` is
negative, and each takes the width of one level off the stack. Two things can go wrong with the
array that holds the levels. Its entries are bytes, so that a level of 256 columns or more is
stored too small; and it has 64 of them, without a test.

* `lexer_terminates_iff`: iterating over the tokens ends exactly when a pending request for
  dedents is never larger than the sum of the widths that are stored (`Covered`), and no line
  needs a level that the array does not have (`Event.Room`). From a state that is not covered
  `advance` emits dedents forever.
* `lexer_balanced_iff`: where every level fits (`Event.Fits`), no prefix has more dedents than
  indents; at the end the numbers are equal exactly when no indent is open, which
  `total_indent_width` tells. Only a line break at the very end of the text that `advance` comes
  to itself closes what is open.
-/

namespace Intent.Old

open Finset

/-! ### The stack of indents -/

/-- The sum of the widths on the stack. -/
def Indentation.stored (s : Indentation) : ℕ :=
  ∑ i ∈ range s.depth, (s.indentStack (i + 1)).toNat

/-- A request for dedents asks for no more than the stack can give back. -/
def Indentation.Covered (s : Indentation) : Prop := -s.indentDedentDelta ≤ (s.stored : ℤ)

instance (s : Indentation) : Decidable s.Covered := inferInstanceAs (Decidable (_ ≤ _))

section Stack

variable {s s' : Indentation} {es : List Event}

theorem Indentation.depth_of_lt (h : s.lastStackInsertIdx < indentStackSize) :
    s.depth = s.lastStackInsertIdx := by
  unfold Indentation.depth
  rw [if_neg]
  intro hno
  rw [hno] at h
  exact absurd h (by decide)

theorem Indentation.Valid.depth_eq (hs : s.Valid) (hδ : s.indentDedentDelta ≠ 0) :
    s.depth = s.lastStackInsertIdx := by
  obtain h | ⟨-, -, h⟩ := hs
  · exact s.depth_of_lt h
  · exact absurd h hδ

theorem depth_popped (hs : s.Valid) (hδ : s.indentDedentDelta ≠ 0) :
    s.popped.depth = s.depth - 1 := by
  obtain hlt | ⟨-, -, h⟩ := hs
  · have hidx := popped_lastStackInsertIdx s
    rw [s.depth_of_lt hlt, s.popped.depth_of_lt (by omega), hidx]
  · exact absurd h hδ

theorem popped_indentStack (s : Indentation) : s.popped.indentStack = s.indentStack := by
  unfold Indentation.popped
  split_ifs <;> rfl

@[simp]
theorem depth_request (s : Indentation) (w : ℤ) : (s.request w).depth = s.depth := by
  unfold Indentation.depth Indentation.request
  rfl

@[simp]
theorem stored_request (s : Indentation) (w : ℤ) : (s.request w).stored = s.stored := by
  simp only [Indentation.stored, depth_request]
  simp only [Indentation.request]

@[simp]
theorem totalIndentWidth_request (s : Indentation) (w : ℤ) :
    (s.request w).totalIndentWidth = s.totalIndentWidth := by
  simp only [Indentation.request]

/-- What a dedent takes off the stack. -/
theorem stored_popped (hs : s.Valid) (hδ : s.indentDedentDelta ≠ 0) (hd : 0 < s.depth) :
    s.stored = s.popped.stored + s.topWidth := by
  have hidx := hs.depth_eq hδ
  obtain ⟨d, hd'⟩ : ∃ d, s.depth = d + 1 := Nat.exists_eq_succ_of_ne_zero hd.ne'
  unfold Indentation.stored Indentation.topWidth
  rw [depth_popped hs hδ, popped_indentStack, ← hidx, hd', Nat.add_sub_cancel, sum_range_succ]

/-- The stack after a push of `width`. -/
theorem stored_deeper {width : UInt8} (hidx : s'.lastStackInsertIdx = s.depth + 1)
    (hroom : s.depth + 1 < indentStackSize) (htop : s'.indentStack (s.depth + 1) = width)
    (hrest : ∀ i, 1 ≤ i → i ≤ s.depth → s'.indentStack i = s.indentStack i) :
    s'.depth = s.depth + 1 ∧ s'.stored = s.stored + width.toNat := by
  have hdepth : s'.depth = s.depth + 1 := by rw [s'.depth_of_lt (by omega), hidx]
  refine ⟨hdepth, ?_⟩
  unfold Indentation.stored
  rw [hdepth, sum_range_succ, htop]
  congr 1
  refine sum_congr rfl fun i hi => ?_
  rw [hrest (i + 1) (by omega) (mem_range.mp hi)]

theorem LookedAt.depth_eq (h : LookedAt s es s')
    (htotal : s'.totalIndentWidth = s.totalIndentWidth) : s'.depth = s.depth := by
  obtain ⟨-, rfl⟩ | ⟨w, -, hw⟩ := h
  · rfl
  · cases hw with
    | level => rfl
    | deeper hlt _ hw => omega
    | shallower => exact depth_request _ _

/-- The widths that are stored are no larger than those that were measured. -/
def Indentation.Bounded (s : Indentation) : Prop := s.stored ≤ s.totalIndentWidth

theorem LookedAt.bounded (h : LookedAt s es s') (hs : s.Bounded) : s'.Bounded := by
  obtain ⟨-, rfl⟩ | ⟨w, -, hw⟩ := h
  · exact hs
  · cases hw with
    | level => exact hs
    | deeper hlt hroom htotal _ hidx htop hrest =>
      obtain ⟨-, hstored⟩ := stored_deeper hidx hroom htop hrest
      have hmod := Nat.mod_le (w - s.totalIndentWidth) (2 ^ 8)
      rw [UInt8.toNat_ofNat'] at hstored
      unfold Indentation.Bounded at hs ⊢
      omega
    | shallower => simpa [Indentation.Bounded] using hs

theorem Looks.bounded (h : Looks s es s') (hs : s.Bounded) : s'.Bounded := by
  induction h with
  | last h => exact h.bounded hs
  | keep h _ _ ih => exact ih (h.bounded hs)
  | comment _ _ ih => exact ih hs

theorem totalIndentWidth_popped (hd : 0 < s.lastStackInsertIdx) :
    s.popped.totalIndentWidth = s.totalIndentWidth - s.topWidth := by
  rw [Indentation.popped, if_pos hd]
  rfl

theorem Indentation.Bounded.popped (hs : s.Bounded) (hv : s.Valid)
    (hδ : s.indentDedentDelta ≠ 0) : s.popped.Bounded := by
  rcases Nat.eq_zero_or_pos s.lastStackInsertIdx with hz | hd
  · rw [Indentation.popped, if_neg (by omega)]
    exact hs
  · have hstored := stored_popped hv hδ (by rwa [hv.depth_eq hδ])
    have htotal := totalIndentWidth_popped hd
    unfold Indentation.Bounded at hs ⊢
    omega

end Stack

/-! ### Termination -/

variable {v : View} {m m' : Lexer} {ts : List Token} {es : List Event} {b : Bool}

/-- Incrementing an iterator over the lexer reaches `end()`. -/
inductive ReachesEnd (v : View) : Lexer → Prop where
  | stop {m m' : Lexer} {es : List Event} : advance v m = ⟨es, m', .returned false⟩ →
      ReachesEnd v m
  | next {m m' : Lexer} {es : List Event} : advance v m = ⟨es, m', .returned true⟩ →
      ReachesEnd v m' → ReachesEnd v m

theorem Step.room (h : Step v m es b m') : ∀ e ∈ es, e.Room := by
  induction h with
  | error => simp
  | indent => simp
  | dedent => simp
  | stop _ _ _ h => exact h
  | skip _ _ _ _ _ hlook _ ih =>
    intro e he
    rcases List.mem_cons.mp he with rfl | he
    · trivial
    rcases List.mem_append.mp he with he | he
    · rcases hlook with hl | ⟨rfl, -⟩
      · exact hl.room e he
      · cases he
    · exact ih e he
  | token _ _ _ _ hf =>
    intro e he
    rcases List.mem_cons.mp he with rfl | he
    · trivial
    · exact hf.looks.room e he

theorem Step.bounded (h : Step v m es b m') (hv : m.Valid) (hs : m.Bounded) : m'.Bounded := by
  induction h with
  | error => exact hs
  | indent => exact hs
  | dedent _ hneg => exact hs.popped hv hneg.ne
  | stop => exact hs
  | skip _ _ _ _ _ hlook _ ih =>
    rcases hlook with hl | ⟨-, hl⟩
    · exact ih (hl.valid hv) (hl.bounded hs)
    · rw [hl] at ih
      exact ih hv.forced (by simpa [Indentation.Bounded] using hs)
  | token _ _ _ _ hf => exact hf.looks.bounded hs

/-- The width that `pop_indent` subtracts is never larger than `total_indent_width`. -/
theorem Run.bounded (hv : v.Terminated) (h : Run v ts m) : m.Bounded := by
  induction h with
  | start hm =>
    refine ((construct_spec _).returned hm).2.2.2.bounded ?_
    exact le_rfl
  | next hrun hm ih => exact (hrun.step hv hm).bounded (hrun.valid hv) ih

/-- A dedent from a state that is not covered leads to another one. -/
theorem not_covered_popped {s : Indentation} (hv : s.Valid) (hδ : s.indentDedentDelta < 0)
    (h : ¬ s.Covered) : ¬ s.popped.Covered := by
  rcases Nat.eq_zero_or_pos s.lastStackInsertIdx with hz | hd
  · rwa [Indentation.popped, if_neg (by omega)]
  · have hstored := stored_popped hv hδ.ne (by rwa [hv.depth_eq hδ.ne])
    have hdelta : s.popped.indentDedentDelta = s.indentDedentDelta + s.topWidth := by
      unfold Indentation.Covered at h
      rw [Indentation.popped, if_pos hd]
      refine if_neg ?_
      change ¬(s.indentDedentDelta + s.topWidth > 0)
      omega
    unfold Indentation.Covered at h ⊢
    omega

/-- **Endless dedents.** A state that is not covered does not reach the end. -/
theorem ReachesEnd.covered (hv : v.Terminated) (h : ReachesEnd v m) (hs : m.Valid) :
    m.Covered := by
  by_contra hc
  have hneg : m.indentDedentDelta < 0 := by
    unfold Indentation.Covered at hc
    omega
  induction h with
  | stop hm =>
    cases (advance_step hv hs).returned hm with
    | stop _ hδ => omega
    | skip _ hδ => omega
  | next hm _ ih =>
    have hstep := (advance_step hv hs).returned hm
    cases hstep with
    | error => exact ih hs hc hneg
    | indent _ hpos => omega
    | dedent =>
      have hc' := not_covered_popped hs hneg hc
      refine ih (hs.popped hneg.ne) hc' ?_
      change Indentation.indentDedentDelta (Indentation.popped _) < 0
      unfold Indentation.Covered at hc'
      omega
    | skip _ hδ => omega
    | token _ hδ => omega

/-- Where every line has room, every call of `advance` returns. -/
theorem Run.returns (hv : v.Terminated) (hroom : ∀ e, Occurs v e → e.Room) (h : Run v ts m) :
    ∃ b es m', advance v m = ⟨es, m', .returned b⟩ ∧ Step v m es b m' := by
  refine (advance_step hv (h.valid hv)).exists_returned_of fun _ _ hover => ?_
  obtain ⟨e, he, hnot⟩ := hover
  exact hnot (hroom e (.call h he))

/-- Where every line has room, the constructor comes to its call of `advance`. -/
theorem exists_start (hroom : ∀ e, Occurs v e → e.Room) :
    ∃ es m, construct v.text Lexer.initial = ⟨es, m, .returned ()⟩ := by
  obtain ⟨_, es, m, hm, -⟩ := (construct_spec v.text).exists_returned_of fun _ _ hover => by
    obtain ⟨e, he, hnot⟩ := hover
    exact hnot (hroom e (.start he))
  exact ⟨es, m, hm⟩

/-- The level that a line opens can be stored: it is at most 255 columns wide, and there is room
on the stack. -/
def Event.Fits : Event → Prop
  | .lineIndent w total idx =>
    total < w → w ≤ total + 255 ∧ (idx = noIndentYet ∨ idx + 1 < indentStackSize)
  | _ => True

instance (e : Event) : Decidable e.Fits := by
  cases e
  case lineIndent w total idx =>
    exact inferInstanceAs (Decidable (_ → _ ∧ (_ ∨ _)))
  all_goals exact inferInstanceAs (Decidable True)

theorem Event.Fits.room {e : Event} (h : e.Fits) : e.Room := by
  cases e with
  | lineIndent w total idx => exact fun hlt => (h hlt).2
  | dispatch => trivial
  | commentLine => trivial

/-- The indents of a run in which every level fits: the stack holds the true widths, none of
them zero, and neither a request for dedents nor a pending indent goes beyond it. -/
structure Indentation.Tight (s : Indentation) : Prop where
  valid : s.Valid
  stored_eq : s.stored = s.totalIndentWidth
  pos : ∀ i, i < s.depth → 0 < (s.indentStack (i + 1)).toNat
  covered : -s.indentDedentDelta ≤ (s.totalIndentWidth : ℤ)
  pending : 0 < s.indentDedentDelta → 0 < s.depth

/-- The number of indents that were emitted and not yet closed. -/
def Indentation.emitted (s : Indentation) : ℤ :=
  (s.depth : ℤ) - if 0 < s.indentDedentDelta then 1 else 0

section Balance

variable {s s' : Indentation}

theorem Indentation.emitted_of_nonpos (h : s.indentDedentDelta ≤ 0) : s.emitted = s.depth := by
  unfold Indentation.emitted
  rw [if_neg (not_lt.mpr h), sub_zero]

theorem Indentation.Tight.depth_lt (h : s.Tight) : s.depth < indentStackSize := by
  obtain hlt | ⟨hno, -, -⟩ := h.valid
  · rwa [s.depth_of_lt hlt]
  · unfold Indentation.depth
    rw [if_pos hno]
    decide

/-- The total is far from the limits of the integers that hold it. -/
theorem Indentation.Tight.total_lt (h : s.Tight) : s.totalIndentWidth < 2 ^ 31 := by
  have hbound : s.stored ≤ s.depth * 255 := by
    have := sum_le_card_nsmul (range s.depth) (fun i => (s.indentStack (i + 1)).toNat) 255
      fun i _ => Nat.le_of_lt_succ (UInt8.toNat_lt _)
    simpa [Indentation.stored] using this
  have hdepth : s.depth < 64 := h.depth_lt
  have := h.stored_eq
  omega

theorem toInt_of_lt {x : ℤ} (h₀ : 0 ≤ x) (h : x < 2 ^ 31) : toInt x = x := by
  unfold toInt
  rw [Int.bmod_def, Int.emod_eq_of_lt h₀ (by omega), if_pos (by omega)]

/-- A request for dedents down to a width `w`. -/
theorem Indentation.Tight.request (h : s.Tight) {w : ℕ} (hw : w ≤ s.totalIndentWidth)
    (hvalid : (s.request ((s.totalIndentWidth : ℤ) - w)).Valid) :
    (s.request ((s.totalIndentWidth : ℤ) - w)).Tight ∧
      (s.request ((s.totalIndentWidth : ℤ) - w)).indentDedentDelta ≤ 0 := by
  have hδ : (s.request ((s.totalIndentWidth : ℤ) - w)).indentDedentDelta =
      -((s.totalIndentWidth : ℤ) - w) := by
    have := h.total_lt
    simp only [Indentation.request]
    rw [toInt_of_lt (by omega) (by omega)]
    omega
  refine ⟨⟨hvalid, ?_, ?_, ?_, ?_⟩, by omega⟩
  · rw [stored_request, totalIndentWidth_request, h.stored_eq]
  · intro i hi
    rw [depth_request] at hi
    exact h.pos i hi
  · rw [hδ, totalIndentWidth_request]
    omega
  · intro hpos
    omega

/-- **A line** keeps the indents tight, and emits nothing. -/
theorem LookedAt.tight (h : LookedAt s es s') (hfit : ∀ e ∈ es, e.Fits) (hs : s.Tight)
    (hδ : s.indentDedentDelta ≤ 0) : s'.Tight ∧ s'.emitted = s.emitted ∧
      (s'.totalIndentWidth = s.totalIndentWidth → s'.indentDedentDelta ≤ 0) := by
  have hvalid := h.valid hs.valid
  obtain ⟨-, rfl⟩ | ⟨w, rfl, hw⟩ := h
  · exact ⟨hs, rfl, fun _ => hδ⟩
  cases hw with
  | level => exact ⟨hs, rfl, fun _ => hδ⟩
  | deeper hlt hroom htotal hδ' hidx htop hrest =>
    obtain ⟨hdepth, hstored⟩ := stored_deeper hidx hroom htop hrest
    have hwidth : (UInt8.ofNat (w - s.totalIndentWidth)).toNat = w - s.totalIndentWidth := by
      have := (hfit _ (List.mem_singleton.mpr rfl) hlt).1
      rw [UInt8.toNat_ofNat']
      exact Nat.mod_eq_of_lt (by omega)
    rw [hwidth] at hstored
    have hstored_eq := hs.stored_eq
    refine ⟨⟨hvalid, by omega, fun i hi => ?_, by omega, fun _ => by omega⟩, ?_, fun h => by omega⟩
    · rcases Nat.lt_or_ge i s.depth with hi' | hi'
      · rw [hrest (i + 1) (by omega) hi']
        exact hs.pos i hi'
      · obtain rfl : i = s.depth := by omega
        rw [htop, hwidth]
        omega
    · rw [s.emitted_of_nonpos hδ, Indentation.emitted, if_pos (by omega), hdepth]
      omega
  | shallower hlt =>
    obtain ⟨ht, hle⟩ := hs.request hlt.le hvalid
    refine ⟨ht, ?_, fun _ => hle⟩
    rw [s.emitted_of_nonpos hδ, Indentation.emitted_of_nonpos hle, depth_request]

theorem Looks.tight (h : Looks s es s') (hfit : ∀ e ∈ es, e.Fits) (hs : s.Tight)
    (hδ : s.indentDedentDelta ≤ 0) : s'.Tight ∧ s'.emitted = s.emitted := by
  induction h with
  | last h =>
    obtain ⟨h₁, h₂, -⟩ := h.tight hfit hs hδ
    exact ⟨h₁, h₂⟩
  | keep h htotal _ ih =>
    obtain ⟨h₁, h₂, h₃⟩ := h.tight (fun e he => hfit e (List.mem_append_left _ he)) hs hδ
    obtain ⟨h₄, h₅⟩ := ih (fun e he => hfit e (List.mem_append_right _ he)) h₁ (h₃ htotal)
    exact ⟨h₄, h₅.trans h₂⟩
  | comment _ _ ih => exact ih (fun e he => hfit e (List.mem_cons_of_mem _ he)) hs hδ

/-- **A dedent** closes one level. -/
theorem Indentation.Tight.popped (h : s.Tight) (hδ : s.indentDedentDelta < 0) :
    s.popped.Tight ∧ s.popped.emitted = s.emitted - 1 := by
  have hdepth : 0 < s.depth := by
    by_contra hzero
    have hstored : s.stored = 0 := by
      unfold Indentation.stored
      rw [Nat.eq_zero_of_not_pos hzero, sum_range_zero]
    have := h.stored_eq
    have := h.covered
    omega
  have hidx : 0 < s.lastStackInsertIdx := by rwa [← h.valid.depth_eq hδ.ne]
  have hdepth' := depth_popped h.valid hδ.ne
  have hstored := stored_popped h.valid hδ.ne hdepth
  have htotal := totalIndentWidth_popped hidx
  have hstored_eq := h.stored_eq
  have hcovered := h.covered
  have hdelta : s.popped.indentDedentDelta =
      if s.indentDedentDelta + s.topWidth > 0 then 0 else s.indentDedentDelta + s.topWidth := by
    rw [Indentation.popped, if_pos hidx]
    rfl
  have hnonpos : s.popped.indentDedentDelta ≤ 0 := by
    rw [hdelta]
    split_ifs <;> omega
  refine ⟨⟨h.valid.popped hδ.ne, by omega, fun i hi => ?_, ?_, fun hpos => by omega⟩, ?_⟩
  · rw [popped_indentStack]
    exact h.pos i (by omega)
  · rw [hdelta]
    split_ifs <;> omega
  · rw [Indentation.emitted_of_nonpos hnonpos, s.emitted_of_nonpos hδ.le, hdepth']
    omega

end Balance

/-- What a token adds to the number of indents that are not yet closed. -/
def Token.weight (t : Token) : ℤ :=
  if t.type = .indent then 1 else if t.type = .dedent then -1 else 0

theorem Token.weight_of_found {txt : Text} (h : Found txt m es m') : m'.t.weight = 0 := by
  have htype := h.type_eq
  unfold Token.weight
  split_ifs with h₁ h₂
  · rw [h₁] at htype
    exact absurd htype (by decide)
  · rw [h₂] at htype
    exact absurd htype (by decide)
  · rfl

/-- **One call** keeps the indents tight and the count exact. -/
theorem Step.tight (h : Step v m es b m') (hfit : ∀ e ∈ es, e.Fits) (hs : m.Tight) :
    m'.Tight ∧ m'.emitted = m.emitted + m'.t.weight := by
  induction h with
  | error => exact ⟨hs, (add_zero _).symm⟩
  | @indent m herr hpos =>
    refine ⟨⟨?_, hs.stored_eq, hs.pos, ?_, fun h => absurd h (lt_irrefl _)⟩, ?_⟩
    · exact .inl ((hs.valid).resolve_right fun h => by omega)
    · change -0 ≤ _
      omega
    · change (m.depth : ℤ) - 0 = (m.depth : ℤ) - (if _ then 1 else 0) + 1
      rw [if_pos hpos]
      omega
  | dedent _ hneg =>
    obtain ⟨ht, he⟩ := hs.popped hneg
    exact ⟨ht, he⟩
  | stop => exact ⟨hs, (add_zero _).symm⟩
  | @skip m m₁ m' es es' b _ hδ _ _ _ hlook _ ih =>
    obtain ⟨ht₁, he₁⟩ : m₁.Tight ∧ m₁.emitted = m.emitted := by
      rcases hlook with hl | ⟨-, hl⟩
      · obtain ⟨h₁, h₂, -⟩ := hl.tight
          (fun e he => hfit e (List.mem_cons_of_mem _ (List.mem_append_left _ he))) hs hδ.le
        exact ⟨h₁, h₂⟩
      · have hreq : m.request m.totalIndentWidth =
            m.request ((m.totalIndentWidth : ℤ) - (0 : ℕ)) := by
          rw [Nat.cast_zero, sub_zero]
        have hvalid := hs.valid.forced
        rw [hreq] at hl hvalid
        obtain ⟨h₁, h₂⟩ := hs.request (Nat.zero_le _) hvalid
        rw [hl]
        refine ⟨h₁, ?_⟩
        rw [Indentation.emitted_of_nonpos h₂, depth_request, Indentation.emitted_of_nonpos hδ.le]
    obtain ⟨ht', he'⟩ := ih
      (fun e he => hfit e (List.mem_cons_of_mem _ (List.mem_append_right _ he))) ht₁
    exact ⟨ht', by omega⟩
  | token _ hδ _ _ hf =>
    obtain ⟨ht, he⟩ := hf.looks.tight (fun e he => hfit e (List.mem_cons_of_mem _ he)) hs hδ.le
    refine ⟨ht, ?_⟩
    rw [Token.weight_of_found hf, add_zero]
    exact he

/-- The number of `tt_indent` tokens. -/
def indents (ts : List Token) : ℕ := ts.countP fun t => t.type = .indent

/-- The number of `tt_dedent` tokens. -/
def dedents (ts : List Token) : ℕ := ts.countP fun t => t.type = .dedent

theorem indents_sub_dedents_append (ts : List Token) (t : Token) :
    (indents (ts ++ [t]) : ℤ) - dedents (ts ++ [t]) = indents ts - dedents ts + t.weight := by
  unfold indents dedents Token.weight
  simp only [List.countP_append, List.countP_singleton, decide_eq_true_eq]
  split_ifs with h₁ h₂ h₂
  · rw [h₁] at h₂
    cases h₂
  all_goals
    push_cast
    omega

/-- **Runs.** Where every level fits, the indents are tight in every state, and their number is
that of the tokens. -/
theorem Run.tight (hv : v.Terminated) (hfit : ∀ e, Occurs v e → e.Fits) (h : Run v ts m) :
    m.Tight ∧ (indents ts : ℤ) - dedents ts = m.emitted := by
  induction h with
  | start hm =>
    have hinit : Lexer.initial.Tight := by
      refine ⟨Lexer.initial_valid, rfl, fun i hi => ?_, le_rfl, fun h => absurd h (lt_irrefl _)⟩
      exact absurd hi (Nat.not_lt_zero i)
    have hlook := ((construct_spec _).returned hm).2.2.2
    obtain ⟨h₁, h₂, -⟩ := hlook.tight (fun e he => hfit e (.start (by rwa [hm]))) hinit le_rfl
    exact ⟨h₁, h₂.symm⟩
  | next hrun hm ih =>
    obtain ⟨h₁, h₂⟩ := (hrun.step hv hm).tight
      (fun e he => hfit e (.call hrun (by rwa [hm]))) ih.1
    refine ⟨h₁, ?_⟩
    rw [indents_sub_dedents_append, h₂, ih.2]

/-- `advance` returns false only when nothing is pending. -/
theorem Step.delta_eq_zero (h : Step v m es false m') : m.indentDedentDelta = 0 := by
  cases h with
  | stop _ hδ => exact hδ
  | skip _ hδ => exact hδ

/-- No level is open exactly when the total is zero. -/
theorem Indentation.Tight.depth_eq_zero_iff {s : Indentation} (h : s.Tight) :
    s.depth = 0 ↔ s.totalIndentWidth = 0 := by
  rw [← h.stored_eq]
  unfold Indentation.stored
  constructor
  · intro hd
    rw [hd, sum_range_zero]
  · intro hsum
    by_contra hd
    have hzero := (sum_eq_zero_iff.mp hsum) 0 (mem_range.mpr (Nat.pos_of_ne_zero hd))
    have := h.pos 0 (Nat.pos_of_ne_zero hd)
    omega

/-- **Balance.** Where every level fits: every call returns, the stack index stays inside of the
array, no prefix of the tokens has more dedents than indents, and at the end of the iteration
the numbers are equal exactly when the last call finds no indent open. -/
theorem lexer_balanced_iff (hv : v.Terminated) (hfit : ∀ e, Occurs v e → e.Fits) :
    (∃ m, Run v [] m) ∧
      (∀ ts m, Run v ts m → dedents ts ≤ indents ts ∧
        (m.lastStackInsertIdx = noIndentYet ∨ m.lastStackInsertIdx < indentStackSize) ∧
        ∃ b es m', advance v m = ⟨es, m', .returned b⟩) ∧
      ∀ ts m es m', Run v ts m → advance v m = ⟨es, m', .returned false⟩ →
        (indents ts = dedents ts ↔ m.totalIndentWidth = 0) := by
  have hroom : ∀ e, Occurs v e → e.Room := fun e he => (hfit e he).room
  refine ⟨?_, fun ts m hrun => ?_, fun ts m es m' hrun hm => ?_⟩
  · obtain ⟨es, m, hm⟩ := exists_start hroom
    exact ⟨m, .start hm⟩
  · obtain ⟨ht, hcount⟩ := hrun.tight hv hfit
    obtain ⟨b, es, m', hm, -⟩ := hrun.returns hv hroom
    refine ⟨?_, ht.valid.symm.imp_left And.left, b, es, m', hm⟩
    have hnonneg : 0 ≤ m.emitted := by
      unfold Indentation.emitted
      split_ifs with hpos
      · have := ht.pending hpos
        omega
      · omega
    omega
  · obtain ⟨ht, hcount⟩ := hrun.tight hv hfit
    rw [← ht.depth_eq_zero_iff]
    rw [Indentation.emitted_of_nonpos (hrun.step hv hm).delta_eq_zero.le] at hcount
    omega

/-- A tab, a number and a line break: the indent is closed at the end. -/
def indentedNumber : View := ⟨bytes ['\t', '1', '\n'], fun _ => 0⟩

theorem lexer_balanced_number : indentedNumber.Terminated ∧
    (∀ e, Occurs indentedNumber e → e.Fits) ∧
    ∀ ts m, Run indentedNumber ts m → dedents ts ≤ indents ts := by
  have hv : indentedNumber.Terminated := rfl
  have hfit : ∀ e, Occurs indentedNumber e → e.Fits := by
    have hall : ((eventsOf indentedNumber 5).all fun es => es.all fun e => e.Fits) = true ∧
        (eventsOf indentedNumber 5).isSome = true := by
      decide +kernel
    obtain ⟨es, hes⟩ := Option.isSome_iff_exists.mp hall.2
    intro e he
    have hall' := hall.1
    rw [hes, Option.all_some, List.all_eq_true] at hall'
    exact of_decide_eq_true (hall' e (he.mem_eventsOf hes))
  exact ⟨hv, hfit, fun ts m h => ((lexer_balanced_iff hv hfit).2.1 ts m h).1⟩

/-- A tab and a letter: the indent is not closed. -/
theorem lexer_unbalanced_letter : ∃ ts m es m', Run ⟨bytes ['\t', 'a'], fun _ => 0⟩ ts m ∧
    advance ⟨bytes ['\t', 'a'], fun _ => 0⟩ m = ⟨es, m', .returned false⟩ ∧
      indents ts ≠ dedents ts := by
  have hrun : ((runOf ⟨bytes ['\t', 'a'], fun _ => 0⟩ 2).any fun r =>
      (advance ⟨bytes ['\t', 'a'], fun _ => 0⟩ r.2).ending = .returned false ∧
        indents r.1 ≠ dedents r.1) = true := by
    decide +kernel
  obtain ⟨⟨ts, m⟩, hr, hc⟩ := (Option.any_eq_true _ _).mp hrun
  obtain ⟨hend, hne⟩ := of_decide_eq_true hc
  dsimp only at hend hne
  rcases hm : advance ⟨bytes ['\t', 'a'], fun _ => 0⟩ m with ⟨es, m', r⟩
  rw [hm] at hend
  subst hend
  exact ⟨ts, m, es, m', runOf_sound hr, hm, hne⟩

end Intent.Old
