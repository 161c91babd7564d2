import Intent.Old.LexerLines

/-!
# The first token of a text

`FirstToken` is the first token besides an indent, and `firstToken_of_scan` finds it: the
constructor looks at the indent of the first line, `advance` yields an indent token if there is
one, and then dispatches on the first character behind it, in a state that `Opened` describes.
-/

namespace Intent.Old

/-! ### The first token -/

section FirstToken

variable {v : View} {ts ts' : List Token} {m m' : Lexer} {t t' : Token}

/-- Of two runs, the shorter one is a beginning of the other. -/
theorem Run.beginning (h : Run v ts m) (h' : Run v ts' m') (hle : ts.length ≤ ts'.length) :
    ts <+: ts' := by
  induction h' with
  | start _ =>
    rw [List.length_nil, Nat.le_zero, List.length_eq_zero_iff] at hle
    rw [hle]
  | @next ts₁ es m₁ m₂ hrun hadv ih =>
    rcases Nat.lt_or_ge ts₁.length ts.length with hlt | hge
    · have hlen : ts.length = (ts₁ ++ [m₂.t]).length := by
        rw [List.length_append, List.length_singleton] at hle ⊢
        omega
      have heq := h.runOf_eq
      rw [hlen, (Run.next hrun hadv).runOf_eq] at heq
      rw [(Prod.mk.inj (Option.some.inj heq)).1]
    · exact (ih hge).trans (List.prefix_append _ _)

/-- The first token that is no indent. -/
def FirstToken (v : View) (t : Token) : Prop :=
  ∃ ts m, Run v (ts ++ [t]) m ∧ (∀ s ∈ ts, s.type = .indent) ∧ t.type ≠ .indent

private theorem FirstToken.eq_of_le {m m' : Lexer} (h : Run v (ts ++ [t]) m)
    (h' : Run v (ts' ++ [t']) m') (ht : t.type ≠ .indent) (hts' : ∀ s ∈ ts', s.type = .indent)
    (hle : ts.length ≤ ts'.length) : t = t' := by
  obtain ⟨rest, hrest⟩ := h.beginning h' (by
    rw [List.length_append, List.length_append]
    exact Nat.add_le_add_right hle 1)
  have hget : (ts' ++ [t'])[ts.length]? = some t := by
    rw [← hrest, List.append_assoc, List.getElem?_append_right le_rfl, Nat.sub_self]
    rfl
  rcases Nat.eq_or_lt_of_le hle with heq | hlt
  · rw [heq, List.getElem?_concat_length] at hget
    exact (Option.some.inj hget).symm
  · rw [List.getElem?_append_left hlt] at hget
    exact absurd (hts' t (List.mem_of_getElem? hget)) ht

/-- There is at most one. -/
theorem FirstToken.unique (h : FirstToken v t) (h' : FirstToken v t') : t = t' := by
  obtain ⟨ts, m, hrun, hts, ht⟩ := h
  obtain ⟨ts', m', hrun', hts', ht'⟩ := h'
  rcases Nat.le_total ts.length ts'.length with hle | hle
  · exact FirstToken.eq_of_le hrun hrun' ht hts' hle
  · exact (FirstToken.eq_of_le hrun' hrun ht' hts hle).symm

end FirstToken

/-! ### The first line -/

section FirstLine

variable {v : View} {indent rest : Text} {c : UInt8} {m : Lexer}

/-- The lexer is about to look for the first token of the first line, with the indent of the line
open. -/
structure Opened (m : Lexer) (indent : Text) : Prop where
  stop_eq : m.t.substr.stop = indent.length
  error_eq : m.pendingError = none
  delta_eq : m.indentDedentDelta = 0
  total_eq : m.totalIndentWidth = indentWidth indent
  room : m.HasRoom

/-- What the constructor finds: an indent that is pending, if there is one. -/
theorem construct_at_indent (h : v.text = indent ++ c :: rest)
    (hindent : ∀ d ∈ indent, isSpaceOrTab d = true) (hspace : isSpaceOrTab c = false)
    (hbreak : isLineBreak c = false) :
    (construct v.text).wp Lexer.initial
      (fun _ _ m => m.t.substr.stop = indent.length ∧ m.pendingError = none ∧
        m.totalIndentWidth = indentWidth indent ∧
        (m.indentDedentDelta = 0 ∧ m.lastStackInsertIdx = noIndentYet ∨
          m.indentDedentDelta = 1 ∧ m.lastStackInsertIdx = 1))
      (fun _ _ _ => False) fun _ => False := by
  have hdrop : v.text.drop 0 = indent ++ c :: rest := h
  obtain ⟨hline, hwidth⟩ := lineAt_of_drop hdrop hindent hspace hbreak
  rw [Nat.zero_add] at hline hwidth
  have hstop : Span.stop (Span.endAt ⟨0, 0⟩ indent.length) = indent.length :=
    Span.stop_endAt (Nat.zero_le _)
  simp only [construct, Gen.wp_bind]
  rw [Gen.wp, scanBeginningOfLine,
    show Lexer.initial = Lexer.initial.setP 0 from rfl, scanLines_of_lineAt hline (by omega)]
  change Gen.wp _ (Lexer.initial.atLine 0 0 indent.length) _ _ _
  simp only [lookAtIndent, pushIndent, Gen.wp_bind, Gen.wp_get, Gen.wp_emit, Gen.wp_ite,
    Gen.wp_modify, Gen.wp_raise, Gen.wp_pure]
  have hw : getIndentWidth v.text (Lexer.initial.atLine 0 0 indent.length).lineBegin
      indent.length = indentWidth indent := hwidth
  rw [hw]
  refine ⟨fun hdeep => ⟨fun _ => ⟨hstop, rfl, ?_, .inr ⟨rfl, rfl⟩⟩, fun hroom => ?_⟩, fun hle =>
    ⟨fun hlt => absurd hlt (Nat.not_lt_zero _), fun _ => ⟨hstop, rfl, ?_, .inl ⟨rfl, rfl⟩⟩⟩⟩
  · change 0 + (indentWidth indent - 0) = _
    omega
  · exact hroom (show emptyIndentStack + 1 < indentStackSize by decide)
  · have hzero : ¬ indentWidth indent > 0 := hle
    change 0 = _
    omega

/-- **The first line** is reached with an indent token, if it has an indent. -/
theorem exists_opened (h : v.text = indent ++ c :: rest)
    (hindent : ∀ d ∈ indent, isSpaceOrTab d = true) (hspace : isSpaceOrTab c = false)
    (hbreak : isLineBreak c = false) :
    ∃ ts m, Run v ts m ∧ (∀ t ∈ ts, t.type = .indent) ∧ Opened m indent := by
  obtain ⟨_, es, m, hstart, hstop, herr, htotal, hδ⟩ :=
    (construct_at_indent h hindent hspace hbreak).exists_returned
  rcases hδ with ⟨hδ, hidx⟩ | ⟨hδ, hidx⟩
  · exact ⟨[], m, .start hstart, by simp, hstop, herr, hδ, htotal, .inl hidx⟩
  · have herr' : m.reset.pendingError = none := herr
    have hδ' : m.reset.indentDedentDelta = 1 := hδ
    have hadvance : advance v m =
        ⟨[], { m.reset.setType .indent with indentDedentDelta := 0 }, .returned true⟩ := by
      simp only [advance, advanceWithin, Gen.modify_bind, Gen.get_bind, herr', hδ']
      rfl
    refine ⟨_, _, .next (.start hstart) hadvance, by simp [Lexer.setType], ?_, herr, rfl, htotal,
      .inr ?_⟩
    · change m.reset.t.substr.stop = _
      rw [reset_substr, ← hstop]
      rfl
    · change m.lastStackInsertIdx + 1 < _
      rw [hidx]
      decide

/-- **The dispatch** on the first character besides blanks. -/
theorem Opened.advance_eq (hm : Opened m indent) (h : v.text = indent ++ c :: rest)
    (hc : StartsToken c) :
    advance v m =
      ((scanToken v c >>= fun _ => pure true) m.reset).after [.dispatch indent.length] := by
  have hlen : indent.length ≤ v.text.length := by
    rw [h, List.length_append]
    omega
  have hbyte : v.byte indent.length = c := by
    rw [View.byte, h, List.getElem?_append_right le_rfl, Nat.sub_self]
    rfl
  obtain ⟨hnul, hspace⟩ := hc
  rw [isWhitespace, Bool.or_eq_false_iff] at hspace
  have hstop := hm.stop_eq
  rw [advance, advanceWithin_dispatch hm.error_eq hm.delta_eq (by omega), hstop, hbyte, dispatchOn,
    if_neg hnul, if_neg (by simp [hspace.2]), if_neg (by simp [hspace.1])]

theorem Opened.reset_p (hm : Opened m indent) : m.reset.p = indent.length := by
  rw [Old.reset_p, hm.stop_eq]

/-- The token of the first line, from what its scanner finds. -/
theorem firstToken_of_scan (h : v.text = indent ++ c :: rest)
    (hindent : ∀ d ∈ indent, isSpaceOrTab d = true) (hc : StartsToken c)
    {P : Token → Prop}
    (hscan : ∀ m, Opened m indent →
      (scanToken v c).wp m.reset (fun _ _ m' => m'.t.type ≠ .indent ∧ P m'.t)
        (fun _ _ _ => False) fun _ => False) :
    ∃ t, FirstToken v t ∧ P t := by
  obtain ⟨hnul, hspace⟩ := hc
  have hspace' := hspace
  rw [isWhitespace, Bool.or_eq_false_iff] at hspace'
  obtain ⟨ts, m, hrun, hts, hm⟩ := exists_opened h hindent hspace'.1 hspace'.2
  obtain ⟨_, es, m', hm', htype, hP⟩ := (hscan m hm).exists_returned
  have hadvance := hm.advance_eq h ⟨hnul, hspace⟩
  rw [Gen.bind_of_returned hm'] at hadvance
  exact ⟨m'.t, ⟨ts, m', .next hrun hadvance, hts, htype⟩, hP⟩

end FirstLine

end Intent.Old
