import Intent.Old.LexerScan

/-!
# Operators are matched as long as possible

The scanners `scan_lt`, …, `scan_question` are nested switches, written without reference to
`operator.tuples`, the file from which the token types of the operators are generated. Here the
file is a table, `operatorTuples`, and the two are compared.

`advance` may dispatch more than once in a call, because it recurses behind whitespace. Only
the last of these dispatches can be on a character that starts a token
(`advanceWithin_of_dispatch`): the scanners themselves never dispatch (`scanToken_quiet`).

The scanner of a first character holds the spellings of that character in the table and no
others, and none of them is behind one that is a prefix of it (`Operator.Agrees`), so that the
first that matches is the longest.
-/

namespace Intent.Old

/-! ### The dispatches of a call -/

/-- The event is no dispatch. -/
def Event.Quiet (e : Event) : Prop := ∀ p, e ≠ .dispatch p

section Quiet

variable {v : View} {txt : Text}

theorem lookAtIndent_quiet (endOfIndent : ℕ) :
    (lookAtIndent txt endOfIndent).Yields Event.Quiet := by
  refine .bind .get fun m => .bind (.emit fun _ => by simp) fun _ => .ite ?_ (.ite .modify .pure)
  exact .bind .modify fun _ => .bind .get fun _ => .ite .modify .raise

theorem scanLines_quiet (fuel : ℕ) : (scanLines txt fuel).Yields Event.Quiet := by
  induction fuel with
  | zero => exact .hang
  | succ fuel ih =>
    refine .bind .get fun m => .ite (.bind .modify fun _ => .ite .pure ?_) .pure
    refine .bind .modify fun _ => .ite ?_ ?_
    · exact .bind .modify fun _ => ih
    · exact .bind (lookAtIndent_quiet _) fun _ => .pure

theorem nextLineContinues_quiet (b : ℕ) : (nextLineContinues txt b).Yields Event.Quiet := by
  refine .bind .get fun _ => .bind .modify fun _ => .bind (scanLines_quiet _) fun _ => ?_
  exact .bind .get fun _ => .ite .pure (.ite .pure (.bind .modify fun _ => .pure))

theorem commentLines_quiet (fuel : ℕ) (text : Text) :
    (commentLines txt fuel text).Yields Event.Quiet := by
  induction fuel generalizing text with
  | zero => exact .hang
  | succ fuel ih =>
    refine .bind .modify fun _ => .bind .get fun _ => .bind (.emit fun _ => by simp) fun _ => ?_
    exact .bind (nextLineContinues_quiet _) fun _ => .ite (ih _) .pure

theorem stringRounds_quiet (quote : UInt8) (fuel : ℕ) (text : Text) :
    (stringRounds v quote fuel text).Yields Event.Quiet := by
  induction fuel generalizing text with
  | zero => exact .hang
  | succ fuel ih =>
    refine .bind .get fun m => ?_
    split
    · exact .pure
    · refine .ite (.bind .modify fun _ => .pure) (.ite (.ite ?_ ?_) (.ite ?_ ?_))
      · exact .bind .modify fun _ => ih _
      · exact .bind .modify fun _ => ih _
      · refine .bind (nextLineContinues_quiet _) fun _ => .ite ?_ ?_
        · exact .bind .modify fun _ => ih _
        · exact .bind .modify fun _ => .pure
      · exact .bind .modify fun _ => ih _

/-- The scanners do not dispatch. -/
theorem scanToken_quiet (c : UInt8) : (scanToken v c).Yields Event.Quiet := by
  unfold scanToken
  split
  · exact .bind .get fun _ => .ite .modify .modify
  · refine .ite ?_ (.ite ?_ (.ite ?_ (.bind .get fun _ => .ite .modify .modify)))
    · refine .bind .get fun _ => .bind .modify fun _ => ?_
      exact .bind (commentLines_quiet _ _) fun _ => .modify
    · refine .bind .get fun _ => .bind .modify fun _ => ?_
      exact .bind (stringRounds_quiet _ _ _) fun _ => .modify
    · refine .bind .get fun _ => .bind .modify fun _ => .ite ?_ .modify
      exact .bind (nextLineContinues_quiet _) fun _ => .modify

theorem crossLineBreak_quiet (c : UInt8) : (crossLineBreak txt c).Yields Event.Quiet := by
  refine .bind .get fun _ => .bind .modify fun _ => .ite ?_ .modify
  exact .bind (scanLines_quiet _) fun _ => .modify

theorem emitDedent_quiet : emitDedent.Yields Event.Quiet := by
  refine .bind (.bind .get fun _ => .ite (.ite ?_ .raise) .pure) fun _ => .modify
  exact .bind .modify fun _ => .pure

end Quiet

section Dispatch

variable {v : View} {m : Lexer} {p : ℕ}

/-- A character that starts a token. -/
def StartsToken (c : UInt8) : Prop := c ≠ 0 ∧ isWhitespace c = false

/-- A character of a class is none of those outside of it. -/
theorem ne_of_class {f : UInt8 → Bool} {c d : UInt8} (hc : f c = true) (hd : f d = false) :
    c ≠ d := by
  rintro rfl
  rw [hc] at hd
  cases hd

theorem StartsToken.of_class {f : UInt8 → Bool} {c : UInt8} (hc : f c = true)
    (hf : f 0 = false ∧ f (ch ' ') = false ∧ f (ch '\t') = false ∧ f (ch '\r') = false ∧
      f (ch '\n') = false) : StartsToken c := by
  obtain ⟨hnul, hspace, htab, hcr, hlf⟩ := hf
  refine ⟨ne_of_class hc hnul, ?_⟩
  simp only [isWhitespace, isSpaceOrTab, isLineBreak, Bool.or_eq_false_iff, beq_eq_false_iff_ne]
  exact ⟨⟨ne_of_class hc hspace, ne_of_class hc htab⟩, ne_of_class hc hlf, ne_of_class hc hcr⟩

theorem not_quote_of_class {f : UInt8 → Bool} {c : UInt8} (hc : f c = true)
    (hf : f (ch '"') = false ∧ f (ch '\'') = false ∧ f (ch '`') = false) :
    ¬ (c = ch '"' ∨ c = ch '\'' ∨ c = ch '`') := by
  rintro (h | h | h)
  · exact ne_of_class hc hf.1 h
  · exact ne_of_class hc hf.2.1 h
  · exact ne_of_class hc hf.2.2 h

/-- A sequence whose first part does not dispatch. -/
theorem mem_yields_bind {α : Type} {r : Lex α} {f : α → Lex Bool} (hr : r.Yields Event.Quiet)
    (hp : .dispatch p ∈ ((r >>= f) m).yields) :
    ∃ es m₁ a, r m = ⟨es, m₁, .returned a⟩ ∧ .dispatch p ∈ (f a m₁).yields := by
  change .dispatch p ∈ (Gen.bind r f m).yields at hp
  have hquiet := hr m
  unfold Gen.bind at hp
  rcases hm : r m with ⟨es, m₁, a | e | _⟩
  · rw [hm] at hp hquiet
    rcases List.mem_append.mp hp with h | h
    · exact absurd rfl (hquiet _ h p)
    · exact ⟨es, m₁, a, rfl, h⟩
  · rw [hm] at hp hquiet
    exact absurd rfl (hquiet _ hp p)
  · rw [hm] at hp hquiet
    exact absurd rfl (hquiet _ hp p)

/-- A call that dispatches has nothing pending. -/
theorem idle_of_dispatch {fuel : ℕ} (hp : .dispatch p ∈ (advanceWithin v (fuel + 1) m).yields) :
    m.pendingError = none ∧ m.indentDedentDelta = 0 ∧ m.t.substr.stop ≤ v.text.length := by
  simp only [advanceWithin, Gen.modify_bind, Gen.get_bind] at hp
  cases herr : m.pendingError with
  | some note =>
    have herr' : m.reset.pendingError = some note := herr
    rw [herr'] at hp
    cases hp
  | none =>
    have herr' : m.reset.pendingError = none := herr
    have hδ' : m.reset.indentDedentDelta = m.indentDedentDelta := rfl
    simp only [herr', hδ', reset_substr] at hp
    split_ifs at hp with h₁ h₂ h₃
    · cases hp
    · obtain ⟨_, _, _, _, hmem⟩ := mem_yields_bind emitDedent_quiet hp
      cases hmem
    · cases hp
    all_goals exact ⟨rfl, by omega, not_lt.mp h₃⟩

/-- The state in which a call from `m` scans a token at `p`. -/
structure AtToken (m : Lexer) (p : ℕ) (m₁ : Lexer) : Prop where
  p_eq : m₁.p = p
  t_eq : m₁.t = ⟨.none, ⟨p, 0⟩, .empty⟩
  error_eq : m₁.pendingError = none
  delta_eq : m₁.indentDedentDelta = 0
  total_eq : m₁.totalIndentWidth = m.totalIndentWidth

/-- A line that is looked at keeps the total, or an indent is pending. -/
theorem LookedAt.total {s s' : Indentation} {es : List Event} (h : LookedAt s es s') :
    s'.totalIndentWidth = s.totalIndentWidth ∨ s'.indentDedentDelta = 1 := by
  obtain ⟨-, rfl⟩ | ⟨w, -, hw⟩ := h
  · exact .inl rfl
  · cases hw with
    | level => exact .inl rfl
    | deeper _ _ _ hδ => exact .inr hδ
    | shallower => exact .inl rfl

theorem crossLineBreak_total (c : UInt8) :
    (crossLineBreak v.text c).wp m
      (fun _ _ m' => m'.totalIndentWidth = m.totalIndentWidth ∨ m'.indentDedentDelta = 1)
      (fun _ _ _ => True) fun _ => True := by
  have request_total : ∀ (s : Indentation) (w : ℤ),
      (s.request w).totalIndentWidth = s.totalIndentWidth := fun _ _ => rfl
  simp only [crossLineBreak, Gen.wp_bind, Gen.wp_get, Gen.wp_modify, Gen.wp_ite, request_total]
  refine ⟨fun _ => ?_, fun _ => .inl rfl⟩
  exact scanBeginningOfLine_spec.imp (fun _ _ _ h => h.looked.total) (fun _ _ _ _ => trivial)
    fun _ _ => trivial

/-- **The dispatch on a token.** A call that dispatches on a character that starts a token
scans that token, at the address of the character, and returns. -/
theorem advanceWithin_of_dispatch {fuel : ℕ}
    (hp : .dispatch p ∈ (advanceWithin v fuel m).yields) (hc : StartsToken (v.byte p)) :
    ∃ es m₁, advanceWithin v fuel m =
        ((scanToken v (v.byte p) >>= fun _ => pure true) m₁).after es ∧
      AtToken m p m₁ ∧ p ≤ v.text.length := by
  induction fuel generalizing m with
  | zero => cases hp
  | succ fuel ih =>
    obtain ⟨herr, hδ, hle⟩ := idle_of_dispatch hp
    obtain ⟨hnul, hspace⟩ := hc
    rw [isWhitespace, Bool.or_eq_false_iff] at hspace
    rw [advanceWithin_dispatch herr hδ hle] at hp ⊢
    rcases List.mem_cons.mp hp with heq | hmem
    · obtain rfl : p = m.t.substr.stop := Event.dispatch.inj heq
      refine ⟨[.dispatch m.t.substr.stop], m.reset, ?_, ⟨reset_p m, ?_, herr, hδ, rfl⟩, hle⟩
      · rw [dispatchOn, if_neg hnul, if_neg (by simp [hspace.2]), if_neg (by simp [hspace.1])]
      · rw [← reset_substr]
        rfl
    · -- the first dispatch was on whitespace, and the call recursed behind it
      have recursed : ∀ r : Lex Unit, r.Yields Event.Quiet →
          r.wp m.reset (fun _ _ m' => m'.totalIndentWidth = m.totalIndentWidth ∨
            m'.indentDedentDelta = 1) (fun _ _ _ => True) (fun _ => True) →
          .dispatch p ∈ ((r >>= fun _ => advanceWithin v fuel) m.reset).yields →
          ∃ es m₁, ((r >>= fun _ => advanceWithin v fuel) m.reset).after
              [.dispatch m.t.substr.stop] =
              ((scanToken v (v.byte p) >>= fun _ => pure true) m₁).after es ∧
            AtToken m p m₁ ∧ p ≤ v.text.length := by
        intro r hr htotal hmem
        obtain ⟨es₁, m₂, _, hrun, hmem⟩ := mem_yields_bind hr hmem
        obtain ⟨es, m₁, heq, hat, hle⟩ := ih hmem
        refine ⟨.dispatch m.t.substr.stop :: (es₁ ++ es), m₁, ?_, ?_, hle⟩
        · rw [Gen.bind_of_returned hrun, heq]
          simp only [Trace.after, List.append_assoc, List.nil_append, List.cons_append]
        · refine ⟨hat.p_eq, hat.t_eq, hat.error_eq, hat.delta_eq, hat.total_eq.trans ?_⟩
          rcases htotal.returned hrun with h | h
          · exact h
          · -- an indent would be pending, and the call would not dispatch
            cases fuel with
            | zero => cases hmem
            | succ fuel =>
              rw [(idle_of_dispatch hmem).2.1] at h
              cases h
      unfold dispatchOn at hmem ⊢
      split_ifs at hmem ⊢ with h₁ h₂ h₃
      · cases hmem
      · exact recursed _ (crossLineBreak_quiet _) (crossLineBreak_total _) hmem
      · exact recursed _ .modify (.inl rfl) hmem
      · obtain ⟨_, _, _, _, hmem⟩ := mem_yields_bind (scanToken_quiet _) hmem
        cases hmem

/-- The token of such a call is the one that its scanner finds. -/
theorem advance_of_dispatch (hp : .dispatch p ∈ (advance v m).yields)
    (hc : StartsToken (v.byte p)) :
    ∃ m₁ : Lexer, m₁.p = p ∧ m₁.t = ⟨.none, ⟨p, 0⟩, .empty⟩ ∧ p ≤ v.text.length ∧
      ∀ {es m'}, scanToken v (v.byte p) m₁ = ⟨es, m', .returned ()⟩ →
        ∃ es', advance v m = ⟨es', m', .returned true⟩ := by
  obtain ⟨es₀, m₁, hrun, hat, hle⟩ := advanceWithin_of_dispatch hp hc
  refine ⟨m₁, hat.p_eq, hat.t_eq, hle, fun {es m'} hscan => ⟨es₀ ++ (es ++ []), ?_⟩⟩
  rw [advance, hrun, Gen.bind_of_returned hscan]
  rfl

end Dispatch

/-! ### The table -/

/-- `operator.tuples`: the type that is generated for the name of an operator, and its text. -/
def operatorTuples : List (TokenType × List Char) :=
  [(.operatorParen, ['(']), (.operatorCloseParen, [')']), (.operatorDot, ['.']),
    (.operatorSafeDot, ['?', '.']), (.operatorSpread, ['*', '.']), (.operatorBrace, ['[']),
    (.operatorSafeSubscript, ['?', '[']), (.operatorSafeEmpty, ['[', '?']),
    (.operatorSafeSubscriptSafeEmpty, ['?', '[', '?']), (.operatorCloseBrace, [']']),
    (.operatorPositiveMark, ['+', '<']), (.operatorNegativeMark, ['-', '<']),
    (.operatorDoublePositiveMark, ['+', '+', '<']),
    (.operatorDoubleNegativeMark, ['-', '-', '<']), (.operatorBitNot, ['~']),
    (.operatorBoolNot, ['!']), (.operatorStar, ['*']), (.operatorSlash, ['/']),
    (.operatorMod, ['%']), (.operatorPlus, ['+']), (.operatorMinus, ['-']),
    (.operatorIncrement, ['+', '+']), (.operatorDecrement, ['-', '-']),
    (.operatorLshift, ['<', '<']), (.operatorRshift, ['>', '>']),
    (.operatorUnsignedRshift, ['>', '>', '>']), (.operatorGreater, ['>']),
    (.operatorLess, ['<']), (.operatorGreaterEqual, ['>', '=']),
    (.operatorLessEqual, ['<', '=']), (.operatorInstanceOf, [':', ':']),
    (.operatorBoolEqual, ['=', '=']), (.operatorNotEqual, ['!', '=']),
    (.operatorSpaceship, ['<', '=', '>']), (.operatorQspaceship, ['?', '<', '=', '>']),
    (.operatorSpaceshipq, ['<', '=', '>', '?']), (.operatorIn, ['-', '[']),
    (.operatorNotIn, ['!', '-', '[']), (.operatorBitAnd, ['&']), (.operatorBitXor, ['^']),
    (.operatorBitOr, ['|']), (.operatorBoolAnd, ['&', '&']), (.operatorBoolOr, ['|', '|']),
    (.operatorTernary, ['?']), (.operatorElvis, ['?', ':']), (.operatorColon, [':']),
    (.operatorGets, [':', '=']), (.operatorAssignEquals, ['=']),
    (.operatorPlusEquals, ['+', '=']), (.operatorMinusEquals, ['-', '=']),
    (.operatorTimesEquals, ['*', '=']), (.operatorDivideEquals, ['/', '=']),
    (.operatorModEquals, ['%', '=']), (.operatorBitAndEquals, ['&', '=']),
    (.operatorBitXorEquals, ['^', '=']), (.operatorBitOrEquals, ['|', '=']),
    (.operatorLshiftEquals, ['<', '<', '=']), (.operatorRshiftEquals, ['>', '>', '=']),
    (.operatorComma, [','])]

/-- The entry of `operator.tuples` of the given type, of `length` characters, begins the text,
and no longer entry does. -/
structure LongestOperator (txt : Text) (type : TokenType) (length : ℕ) : Prop where
  entry : ∃ text, (type, text) ∈ operatorTuples ∧ bytes text <+: txt ∧ text.length = length
  longest : ∀ r ∈ operatorTuples, bytes r.2 <+: txt → r.2.length ≤ length

/-- The table has an entry that begins with the character. -/
def BeginsOperator (c : UInt8) : Prop := ∃ r ∈ operatorTuples, (bytes r.2).head? = some c

instance (c : UInt8) : Decidable (BeginsOperator c) :=
  inferInstanceAs (Decidable (∃ r ∈ operatorTuples, (bytes r.2).head? = some c))

/-- A scanner and the table have the same entries with the first character `c`, and the scanner
tries no spelling after one that it extends. -/
structure Operator.Agrees (op : Operator) (c : Char) : Prop where
  plain : (op.plain, [c]) ∈ operatorTuples
  longer : ∀ r ∈ op.longer, (r.2, c :: r.1) ∈ operatorTuples
  complete : ∀ r ∈ operatorTuples, (bytes r.2).head? = some (ch c) →
    r.2.tail = [] ∨ r.2.tail ∈ op.longer.map Prod.fst
  ordered : op.longer.Pairwise fun r s => ¬ bytes r.1 <+: bytes s.1

private theorem operators_listed : ∀ r ∈ operators, (r.2.plain, [r.1]) ∈ operatorTuples ∧
    ∀ l ∈ r.2.longer, (l.2, r.1 :: l.1) ∈ operatorTuples := by
  decide

private theorem operators_complete : ∀ r ∈ operators, ∀ e ∈ operatorTuples,
    (bytes e.2).head? = some (ch r.1) → e.2.tail = [] ∨ e.2.tail ∈ r.2.longer.map Prod.fst := by
  decide

private theorem operators_ordered :
    ∀ r ∈ operators, r.2.longer.Pairwise fun a b => ¬ bytes a.1 <+: bytes b.1 := by
  decide

/-- **The scanners agree with the table.** -/
theorem operators_agree {r : Char × Operator} (h : r ∈ operators) : r.2.Agrees r.1 :=
  ⟨(operators_listed r h).1, (operators_listed r h).2, operators_complete r h,
    operators_ordered r h⟩

private theorem operators_cover :
    ∀ e ∈ operatorTuples, ∃ r ∈ operators, (bytes e.2).head? = some (ch r.1) := by
  decide

/-- A character that begins an entry of the table has a scanner. -/
theorem BeginsOperator.operatorAt {c : UInt8} (h : BeginsOperator c) :
    ∃ a op, ch a = c ∧ operatorAt c = some op ∧ op.Agrees a := by
  obtain ⟨e, he, hhead⟩ := h
  obtain ⟨r, hr, hfirst⟩ := operators_cover e he
  have hc : ch r.1 = c := Option.some.inj (hfirst.symm.trans hhead)
  cases hfind : operators.find? fun r => ch r.1 = c with
  | none => exact absurd hc (by simpa using List.find?_eq_none.mp hfind r hr)
  | some s =>
    refine ⟨s.1, s.2, by simpa using List.find?_some hfind, ?_,
      operators_agree (List.mem_of_find?_eq_some hfind)⟩
    rw [Old.operatorAt, hfind]
    rfl

section Longest

variable {txt : Text} {p : ℕ} {c : Char} {op : Operator}

theorem slice_eq_bytes_iff {w : List Char} :
    slice txt p (p + w.length) = bytes w ↔ bytes w <+: txt.drop p := by
  rw [List.prefix_iff_eq_take, slice, Nat.add_sub_cancel_left, bytes, List.length_map]
  exact eq_comm

/-- **Longest match.** A scanner that agrees with the table finds the longest entry that begins
the rest of the text. -/
theorem Operator.Agrees.longest (h : op.Agrees c) (hc : txt[p]? = some (ch c)) :
    LongestOperator (txt.drop p) (op.spelledAt txt p).2 (op.spelledAt txt p).1 := by
  have hdrop : txt.drop p = ch c :: txt.drop (p + 1) := by
    obtain ⟨hlt, heq⟩ := List.getElem?_eq_some_iff.mp hc
    rw [List.drop_eq_getElem_cons hlt, heq]
  have entry_cases : ∀ e ∈ operatorTuples, bytes e.2 <+: txt.drop p → e.2.length ≤ 1 ∨
      ∃ r ∈ op.longer, bytes r.1 <+: txt.drop (p + 1) ∧ e.2.length = r.1.length + 1 := by
    intro e he hpre
    rw [hdrop] at hpre
    cases hspelled : e.2 with
    | nil => exact .inl (Nat.zero_le 1)
    | cons a w =>
      rw [hspelled, bytes, List.map_cons, List.cons_prefix_cons] at hpre
      obtain ⟨ha, hw⟩ := hpre
      rcases h.complete e he (by rw [hspelled, ← ha]; rfl) with hnil | hmem
      · rw [hspelled, List.tail_cons] at hnil
        exact .inl (by rw [hnil]; exact le_rfl)
      · rw [hspelled, List.tail_cons] at hmem
        obtain ⟨r, hr, rfl⟩ := List.mem_map.mp hmem
        exact .inr ⟨r, hr, hw, rfl⟩
  unfold Operator.spelledAt
  simp only [slice_eq_bytes_iff]
  split
  case h_1 r hr =>
    have hmem := List.mem_of_find?_eq_some hr
    have hpre : bytes r.1 <+: txt.drop (p + 1) := by simpa using List.find?_some hr
    refine ⟨⟨c :: r.1, h.longer r hmem, ?_, rfl⟩, fun e he hpre => ?_⟩
    · rw [hdrop]
      exact List.cons_prefix_cons.mpr ⟨rfl, hpre⟩
    · rcases entry_cases e he hpre with hone | ⟨s, hs, hpre, hlen⟩
      · dsimp only
        omega
      · have := length_le_of_find?_prefix h.ordered hr hs hpre
        simp only [bytes, List.length_map] at this
        dsimp only
        omega
  case h_2 hnone =>
    refine ⟨⟨[c], h.plain, ?_, rfl⟩, fun e he hpre => ?_⟩
    · rw [hdrop]
      exact List.cons_prefix_cons.mpr ⟨rfl, List.nil_prefix⟩
    · rcases entry_cases e he hpre with hone | ⟨s, hs, hpre, -⟩
      · exact hone
      · exact absurd hpre (by simpa using List.find?_eq_none.mp hnone s hs)

end Longest

/-! ### Tokens -/

/-- The types of numbers. -/
def TokenType.number (type : TokenType) : Bool :=
  type == .binaryNumber || type == .decimalNumber || type == .hexNumber ||
    type == .octalNumber || type == .floatingPointNumber

section Numbers

variable {txt : Text} {q : ℕ}

theorem finishNumber_number (negative : Bool) (whole : UInt64)
    (significand : Option (List ℕ × UInt64)) :
    (finishNumber txt negative whole significand q).type.number = true := by
  unfold finishNumber
  split_ifs
  · rfl
  · cases significand with
    | some s => rfl
    | none => rfl

theorem getDecimalNumber_number (negative floatingPoint : Bool) :
    (getDecimalNumber txt negative floatingPoint q).type.number = true := by
  unfold getDecimalNumber
  dsimp only
  split_ifs
  all_goals exact finishNumber_number _ _ _

/-- **Numbers.** -/
theorem getNumberToken_number (v : View) (p : ℕ) : (getNumberToken v p).type.number = true := by
  unfold getNumberToken
  dsimp only
  generalize (if v.byte p = ch '+' ∨ v.byte p = ch '-' then p + 1 else p) = q
  split_ifs
  · exact getDecimalNumber_number _ _
  · cases hpre : getPrefixedNumber v.text _ _ with
    | none => exact getDecimalNumber_number _ _
    | some s =>
      unfold getPrefixedNumber at hpre
      dsimp only at hpre
      split_ifs at hpre
      all_goals
        obtain rfl := Option.some.inj hpre
        rfl
  · exact getDecimalNumber_number _ _

end Numbers

section Advance

variable {v : View} {m : Lexer} {p : ℕ}

/-- A character of a kind that starts no operator. -/
theorem operatorAt_eq_none {f : UInt8 → Bool} {c : UInt8}
    (h : ∀ r ∈ operators, f (ch r.1) = false) (hc : f c = true) : operatorAt c = none := by
  rw [operatorAt, Option.map_eq_none_iff, List.find?_eq_none]
  intro r hr hfirst
  rw [← of_decide_eq_true hfirst, h r hr] at hc
  cases hc

/-- The scanners for which a digit makes a number. -/
private theorem operators_numeric :
    ∀ r ∈ operators, r.2.numeric = true ↔ ch r.1 = ch '+' ∨ ch r.1 = ch '-' ∨ ch r.1 = ch '.' := by
  decide

theorem operatorAt_numeric_iff {c : UInt8} {op : Operator} (h : operatorAt c = some op) :
    op.numeric = true ↔ c = ch '+' ∨ c = ch '-' ∨ c = ch '.' := by
  obtain ⟨r, hr, rfl⟩ := Option.map_eq_some_iff.mp h
  have hc : ch r.1 = c := by simpa using List.find?_some hr
  rw [← hc]
  exact operators_numeric r (List.mem_of_find?_eq_some hr)

private theorem tuples_start_tokens : ∀ r ∈ operatorTuples,
    (bytes r.2).head?.all (fun c => c != 0 && !isWhitespace c) = true := by
  decide

theorem BeginsOperator.startsToken {c : UInt8} (h : BeginsOperator c) : StartsToken c := by
  obtain ⟨r, hr, hc⟩ := h
  have hstart := tuples_start_tokens r hr
  rw [hc, Option.all_some, Bool.and_eq_true, bne_iff_ne, Bool.not_eq_true'] at hstart
  exact hstart

theorem scanOperator_of_number {op : Operator}
    (h : op.numeric = true ∧ v.text[m.p + 1]?.any isdigit = true) :
    scanOperator v op m = ⟨[], m.setToken (getNumberToken v m.p).type
      (getNumberToken v m.p).stop (getNumberToken v m.p).value, .returned ()⟩ := by
  rw [scanOperator, Gen.get_bind, if_pos h]
  rfl

theorem scanOperator_of_spelling {op : Operator}
    (h : ¬ (op.numeric = true ∧ v.text[m.p + 1]?.any isdigit = true)) :
    scanOperator v op m = ⟨[], { m.setP (m.p + (op.spelledAt v.text m.p).1) with
      t := { m.t with
        type := (op.spelledAt v.text m.p).2
        substr := m.t.substr.endAt (m.p + (op.spelledAt v.text m.p).1) } }, .returned ()⟩ := by
  rw [scanOperator, Gen.get_bind, if_neg h]
  rfl

/-- Whenever `advance` dispatches on a character that begins an entry of `operator.tuples`, it
returns a token from there: a number where the character is `+`, `-` or `.` with a digit after
it, else the longest entry that begins the rest of the text. -/
theorem advance_longest_operator (hv : v.Terminated) (hp : .dispatch p ∈ (advance v m).yields)
    (hc : BeginsOperator (v.byte p)) :
    ∃ es m', advance v m = ⟨es, m', .returned true⟩ ∧ m'.t.substr.begin = p ∧
      if (v.byte p = ch '+' ∨ v.byte p = ch '-' ∨ v.byte p = ch '.') ∧
          v.text[p + 1]?.any isdigit = true then
        m'.t.type.number = true
      else LongestOperator (v.text.drop p) m'.t.type m'.t.substr.length := by
  obtain ⟨m₁, rfl, ht, hle, advanced⟩ := advance_of_dispatch hp hc.startsToken
  obtain ⟨a, op, ha, hop, hagrees⟩ := hc.operatorAt
  have hlt : m₁.p < v.text.length := by
    refine lt_of_le_of_ne hle fun heq => hc.startsToken.1 ?_
    rw [heq, View.byte_length hv]
  have hscan : scanToken v (v.byte m₁.p) = scanOperator v op := by
    unfold scanToken
    rw [hop]
  rw [hscan] at advanced
  simp only [← operatorAt_numeric_iff hop]
  have hbegin : ∀ q, (m₁.t.substr.endAt q).begin = m₁.p := by
    intro q
    rw [ht]
    rfl
  by_cases hnum : op.numeric = true ∧ v.text[m₁.p + 1]?.any isdigit = true
  · obtain ⟨es, hadvance⟩ := advanced (scanOperator_of_number hnum)
    refine ⟨es, _, hadvance, hbegin _, ?_⟩
    rw [if_pos hnum]
    exact getNumberToken_number v m₁.p
  · obtain ⟨es, hadvance⟩ := advanced (scanOperator_of_spelling hnum)
    refine ⟨es, _, hadvance, hbegin _, ?_⟩
    rw [if_neg hnum]
    have hlength : ∀ k, (m₁.t.substr.endAt (m₁.p + k)).length = k := by
      intro k
      rw [ht]
      simp [Span.endAt]
    dsimp only [Lexer.setP]
    rw [hlength]
    exact hagrees.longest (by rw [ha, View.byte_of_lt hlt])

/-- The text `<=>?`, from the beginning. -/
def spaceshipq : View := ⟨bytes ['<', '=', '>', '?'], fun _ => 0⟩

theorem advance_longest_spaceshipq : spaceshipq.Terminated ∧
    .dispatch 0 ∈ (advance spaceshipq Lexer.initial).yields ∧ BeginsOperator (spaceshipq.byte 0) ∧
    ∃ es m', advance spaceshipq Lexer.initial = ⟨es, m', .returned true⟩ ∧
      m'.t.substr.begin = 0 ∧
      if (spaceshipq.byte 0 = ch '+' ∨ spaceshipq.byte 0 = ch '-' ∨ spaceshipq.byte 0 = ch '.') ∧
          spaceshipq.text[0 + 1]?.any isdigit = true then
        m'.t.type.number = true
      else LongestOperator (spaceshipq.text.drop 0) m'.t.type m'.t.substr.length := by
  have hp : .dispatch 0 ∈ (advance spaceshipq Lexer.initial).yields := by decide
  have hc : BeginsOperator (spaceshipq.byte 0) := by decide
  exact ⟨rfl, hp, hc, advance_longest_operator rfl hp hc⟩

end Advance

end Intent.Old
