import Intent.Library.Tiling
import Intent.Old.LexerScan

/-!
# The C++ lexer loses nothing

The spans of the tokens of a run tile the text up to whitespace: they stand in order, and what
lies between them is spaces, tabs and line breaks. `Step.span` says where one call of `advance`
puts its token relative to the end of the last one, by induction over the whitespace that it
skips; `Run.tiles` composes the calls.

A comment on the last line takes the terminator of the text into its span, which is why a tiling
may end one byte after the text.
-/

namespace Intent.Old

variable {v : View} {m m' : Lexer} {ts : List Token} {es : List Event} {b : Bool}

/-- A token that stands for no text: an indent, a dedent, or the error of a pending note. -/
def Token.Pending (t : Token) : Prop :=
  t.type = .indent ∨ t.type = .dedent ∨
    t.type = .error ∧ ∃ note : Note, t.value = .text note.toText

/-- The byte at `k` belongs to the token. -/
def Token.Covers (t : Token) (k : ℕ) : Prop := t.substr.begin ≤ k ∧ k < t.substr.stop

instance (t : Token) (k : ℕ) : Decidable (t.Covers k) := inferInstanceAs (Decidable (_ ∧ _))

/-! ### One call -/

/-- `advance` moves its token over whitespace only. -/
theorem Step.gap (h : Step v m es b m') :
    m.t.substr.stop ≤ m'.t.substr.begin ∧
      ∀ k, m.t.substr.stop ≤ k → k < m'.t.substr.begin → Gap v.text k := by
  have here : ∀ {m : Lexer} {p : ℕ}, p = m.t.substr.stop → m.t.substr.stop ≤ p ∧
      ∀ k, m.t.substr.stop ≤ k → k < p → Gap v.text k :=
    fun hp => ⟨hp.ge, fun k _ _ => by omega⟩
  have reset_begin : ∀ m : Lexer, m.reset.t.substr.begin = m.t.substr.stop :=
    fun m => by rw [reset_substr]
  induction h with
  | error _ => exact here (reset_begin _)
  | indent _ _ => exact here (reset_begin _)
  | dedent _ _ => exact here (reset_begin _)
  | stop _ _ _ _ => exact here (reset_begin _)
  | skip _ _ hlt _ hgap _ _ ih =>
    refine ⟨hlt.le.trans ih.1, fun k hk hk' => ?_⟩
    rcases Nat.lt_or_ge k _ with h | h
    · exact hgap k hk h
    · exact ih.2 k h hk'
  | token _ _ _ _ hf => exact here (hf.begin_eq.trans (reset_p _))

/-- A token that does not stand for text is not empty. -/
theorem Step.nonempty (h : Step v m es b m') (hb : b = true) :
    m'.t.Pending ∨ m'.t.substr.begin < m'.t.substr.stop := by
  induction h with
  | error => exact .inl (.inr (.inr ⟨rfl, _, rfl⟩))
  | indent => exact .inl (.inl rfl)
  | dedent => exact .inl (.inr (.inl rfl))
  | stop => cases hb
  | skip _ _ _ _ _ _ _ ih => exact ih hb
  | token _ _ _ _ hf =>
    have := hf.begin_eq
    have := hf.lt_stop
    exact .inr (by omega)

/-- `advance` gives up at a NUL, or behind the end of the text. -/
theorem Step.stopped (h : Step v m es b m') (hb : b = false) :
    v.text.length < m'.t.substr.begin ∨ v.byte m'.t.substr.begin = 0 := by
  induction h with
  | error => cases hb
  | indent => cases hb
  | dedent => cases hb
  | stop _ _ h _ => rwa [reset_substr]
  | skip _ _ _ _ _ _ _ ih => exact ih hb
  | token => cases hb

/-- The indents stay valid. -/
theorem Step.valid (h : Step v m es b m') (hs : m.Valid) : m'.Valid := by
  induction h with
  | error => exact hs
  | indent _ hpos =>
    rcases hs with h | ⟨h₁, h₂, -⟩
    · exact .inl h
    · exact .inr ⟨h₁, h₂, rfl⟩
  | dedent _ hneg => exact hs.popped hneg.ne
  | stop => exact hs
  | skip _ _ _ _ _ hlook _ ih =>
    refine ih ?_
    rcases hlook with hl | ⟨-, hl⟩
    · exact hl.valid hs
    · rw [hl]
      exact hs.forced
  | token _ _ _ _ hf => exact hf.looks.valid hs

/-! ### Runs -/

/-- What the constructor does before it calls `advance`. -/
theorem construct_spec (txt : Text) :
    (construct txt).wp Lexer.initial
      (fun _ es m => m.t.substr.begin = 0 ∧ m.t.substr.stop ≤ txt.length ∧
        (∀ k, k < m.t.substr.stop → Gap txt k) ∧
        LookedAt Lexer.initial.toIndentation es m.toIndentation)
      Overflows fun _ => False := by
  simp only [construct, Gen.wp_bind, Gen.wp_modify, List.append_nil]
  refine scanBeginningOfLine_spec.imp (fun r es m h => ?_) (fun _ _ _ h => h) fun _ h => h
  have hstop : (m.t.substr.endAt r).stop = r := by
    rw [h.t_eq]
    exact Span.stop_endAt (Nat.zero_le r)
  have hle : r ≤ max 0 txt.length := h.stop_le
  rw [hstop]
  refine ⟨?_, by omega, fun k hk => h.gap k (Nat.zero_le k) hk, h.looked⟩
  change m.t.substr.begin = 0
  rw [h.t_eq]
  rfl

theorem Lexer.initial_valid : Lexer.initial.Valid := .inr ⟨rfl, rfl, rfl⟩

theorem Run.valid (hv : v.Terminated) (h : Run v ts m) : m.Valid := by
  induction h with
  | start hm => exact ((construct_spec _).returned hm).2.2.2.valid Lexer.initial_valid
  | next _ hm ih => exact ((advance_step hv ih).returned hm).valid ih

/-- A call of `advance` in a run is a step. -/
theorem Run.step (hv : v.Terminated) (h : Run v ts m) (hm : advance v m = ⟨es, m', .returned b⟩) :
    Step v m es b m' :=
  (advance_step hv (h.valid hv)).returned hm

/-- **Tiling.** The tokens of a run tile the text up to the end of the latest. -/
theorem Run.tiles (hv : v.Terminated) (h : Run v ts m) :
    Tiles (fun t : Token => t.substr.begin) (fun t => t.substr.stop) (Gap v.text) 0 ts
      m.t.substr.stop := by
  induction h with
  | start hm =>
    obtain ⟨-, -, hgap, -⟩ := (construct_spec _).returned hm
    exact .nil (Nat.zero_le _) fun k _ hk => hgap k hk
  | next hrun hm ih =>
    obtain ⟨hle, hgap⟩ := (hrun.step hv hm).gap
    exact ih.append (.single hle (Nat.le_add_right _ _) le_rfl hgap fun k _ _ => by omega)

theorem Run.nonempty (hv : v.Terminated) (h : Run v ts m) :
    ∀ t ∈ ts, t.Pending ∨ t.substr.begin < t.substr.stop := by
  induction h with
  | start => simp
  | next hrun hm ih =>
    intro t ht
    rcases List.mem_append.mp ht with ht | ht
    · exact ih t ht
    · rw [List.mem_singleton.mp ht]
      exact (hrun.step hv hm).nonempty rfl

theorem View.le_of_byte_eq_zero (hnul : 0 ∉ v.text) {p : ℕ} (h : v.byte p = 0) :
    v.text.length ≤ p := by
  by_contra hp
  refine hnul (List.mem_of_getElem? (i := p) ?_)
  rw [View.byte_of_lt (not_le.mp hp), h]

/-- **Nothing is lost.** On a text that ends in NUL and holds no other: the tokens of every run
are in order and disjoint; each that is no indent, no dedent and no error of a pending note has
at least one byte; what lies before the latest token and belongs to none is whitespace; and when
`advance` returns false, every byte is whitespace or belongs to exactly one token. -/
theorem lexer_lossless (hv : v.Terminated) (hnul : 0 ∉ v.text) (h : Run v ts m) :
    (ts.Pairwise fun t u => t.substr.stop ≤ u.substr.begin) ∧
      (∀ t ∈ ts, t.Pending ∨ t.substr.begin < t.substr.stop) ∧
      (∀ t, ts.getLast? = some t → ∀ k, k < t.substr.begin →
        (∃ u ∈ ts, u.Covers k) ∨ Gap v.text k) ∧
      ∀ es m', advance v m = ⟨es, m', .returned false⟩ → ∀ k, k < v.text.length →
        (ts.countP fun t => t.Covers k) = 1 ∨ Gap v.text k := by
  have htiles := h.tiles hv
  refine ⟨htiles.pairwise, h.nonempty hv, fun t ht k hk => ?_, fun es m' hm k hk => ?_⟩
  · have hle := (htiles.bounds (List.mem_of_getLast? ht)).2
    exact (htiles.covered (Nat.zero_le k) (by omega)).symm
  · have hstep := h.step hv hm
    obtain ⟨-, hgap⟩ := hstep.gap
    have hend : v.text.length ≤ m'.t.substr.begin := by
      rcases hstep.stopped rfl with hlt | hzero
      · exact hlt.le
      · exact View.le_of_byte_eq_zero hnul hzero
    rcases Nat.lt_or_ge k m.t.substr.stop with hlt | hge
    · refine (htiles.covered (Nat.zero_le k) hlt).symm.imp_left fun hex => ?_
      obtain ⟨t, ht, hcov⟩ := hex
      have hone := htiles.countP_le_one k (fun t => t.Covers k) fun t => of_decide_eq_true
      have hpos : 0 < ts.countP fun t => t.Covers k :=
        List.countP_pos_iff.mpr ⟨t, ht, decide_eq_true hcov⟩
      omega
    · exact .inr (hgap k hge (by omega))

/-- The two tokens of `( )`, and the space between them. -/
theorem lexer_lossless_parens : ∃ m, Run ⟨bytes ['(', ' ', ')'], fun _ => 0⟩
      [⟨.operatorParen, ⟨0, 1⟩, .empty⟩, ⟨.operatorCloseParen, ⟨2, 1⟩, .empty⟩] m ∧
    ∀ es m', advance ⟨bytes ['(', ' ', ')'], fun _ => 0⟩ m = ⟨es, m', .returned false⟩ →
      ∀ k, k < 3 → (List.countP (fun t : Token => t.Covers k)
        [⟨.operatorParen, ⟨0, 1⟩, .empty⟩, ⟨.operatorCloseParen, ⟨2, 1⟩, .empty⟩]) = 1 ∨
          Gap (bytes ['(', ' ', ')']) k := by
  obtain ⟨m, hm⟩ := @exists_run ⟨bytes ['(', ' ', ')'], fun _ => 0⟩ 2
    [⟨.operatorParen, ⟨0, 1⟩, .empty⟩, ⟨.operatorCloseParen, ⟨2, 1⟩, .empty⟩]
    (by decide +kernel)
  exact ⟨m, hm, (lexer_lossless (by exact rfl) (by decide) hm).2.2.2⟩

end Intent.Old
