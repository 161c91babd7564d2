import Intent.Py.LexLineSegments

/-!
# What the tokens say of the brackets

The tokens of a whole text against its brackets, for a text on which `lex` completes
(`hypertext_faithful_iff`). An opening token is right exactly for an anchor: the lexer looks for
the `@` or the `^` at the bracket instead of behind it. A closing token is right unless its
section is divided: there the token spans the text before the bracket, and the bracket itself is
read again. A divider that ends the text moves the cursor beyond it. Whatever the tokens span,
they never overlap, and lexing goes on right behind each closing token.
-/

namespace Intent.Py

variable {text : List Char} {i j k fuel : ℕ} {ts us : List Token} {t : Token} {s s' : LexState}

/-- What is asked of the tokens: each is faithful, no character is spanned by two closing
tokens, and the token after a closing one begins where the text goes on. -/
structure BracketsFaithful (text : List Char) (ts : List Token) : Prop where
  faithful : ∀ t ∈ ts, t.Faithful text
  apart : ts.Pairwise fun t u => t.ttype = .endHypertext → u.ttype = .endHypertext →
    ∀ k, t.begin ≤ k → k < t.stop → ¬ (u.begin ≤ k ∧ k < u.stop)
  next : ts.IsChain fun t u =>
    t.ttype = .endHypertext → u.begin = skipWhitespace text t.stop text.length

/-- The tokens of some lines, from `i` to `j`. -/
structure ReadLines (text : List Char) (i : ℕ) (ts : List Token) (j : ℕ) : Prop where
  le : i ≤ j
  within : ∀ t ∈ ts, i ≤ t.begin ∧ t.stop ≤ j
  faithful : FaithfulOver text i ts j
  closes : ts.Pairwise fun t u => t.ttype = .endHypertext → t.stop ≤ u.begin
  chain : ts.IsChain fun t u =>
    t.ttype = .endHypertext → u.begin = skipWhitespace text t.stop text.length
  last : ∀ t ∈ ts.getLast?, t.ttype = .endHypertext →
    skipWhitespace text t.stop text.length = skipWhitespace text j text.length

/-- No closing token is followed by anything. -/
def NoneClosed (ts : List Token) : Prop := ∀ t ∈ ts.getLast?, t.ttype ≠ .endHypertext

/-- Tokens that do not speak of brackets, over blanks. -/
theorem Lead.readLines (h : Lead text s i us k) (hk : k ≤ text.length) :
    ReadLines text i us k where
  le := h.placed.le
  within t ht := ⟨(h.placed.within t ht).1, (h.placed.within t ht).2.2⟩
  faithful _ := by
    refine ⟨fun _ => h.blank.readsWell, fun _ => ⟨fun t ht => ?_, hk⟩⟩
    obtain ⟨-, hbe, hek⟩ := h.placed.within t ht
    exact Token.faithful_of_not_bracket (h.types t ht) ⟨hbe, hek.trans hk⟩
  closes := by
    refine List.pairwise_of_forall_mem_list fun t ht u _ hclose => ?_
    have := h.types t ht
    rw [hclose] at this
    cases this
  chain := by
    refine (List.pairwise_of_forall_mem_list fun t ht u _ hclose => ?_).isChain
    have := h.types t ht
    rw [hclose] at this
    cases this
  last t ht hclose := by
    have := h.types t (List.mem_of_getLast? ht)
    rw [hclose] at this
    cases this

theorem Lead.noneClosed (h : Lead text s i us k) : NoneClosed us := by
  intro t ht hclose
  have := h.types t (List.mem_of_getLast? ht)
  rw [hclose] at this
  cases this

/-- **Lines compose**, where no closing token ends the first ones. -/
theorem ReadLines.append (h₁ : ReadLines text i ts j) (h₂ : ReadLines text j us k)
    (hlast : NoneClosed ts) : ReadLines text i (ts ++ us) k where
  le := h₁.le.trans h₂.le
  within t ht := by
    have := h₁.le
    have := h₂.le
    rcases List.mem_append.mp ht with ht | ht
    · have := h₁.within t ht
      omega
    · have := h₂.within t ht
      omega
  faithful := h₁.faithful.append h₂.faithful h₁.le h₂.le
  closes := by
    refine List.pairwise_append.mpr ⟨h₁.closes, h₂.closes, fun t ht u hu _ => ?_⟩
    exact (h₁.within t ht).2.trans (h₂.within u hu).1
  chain := List.isChain_append.mpr ⟨h₁.chain, h₂.chain,
    fun t ht u _ hclose => absurd hclose (hlast t ht)⟩
  last t ht hclose := by
    cases us with
    | nil =>
      rw [List.append_nil] at ht
      exact absurd hclose (hlast t ht)
    | cons u us =>
      rw [List.getLast?_append_of_ne_nil _ (List.cons_ne_nil u us)] at ht
      exact h₂.last t ht hclose

/-- Blanks that begin in the text end in it. -/
theorem BlankRun.le_length (h : BlankRun text i k) (hi : i ≤ text.length) : k ≤ text.length := by
  by_contra hlt
  have hblank := h text.length hi (by omega)
  rw [charAt, List.getD_eq_getElem?_getD, List.getElem?_eq_none le_rfl] at hblank
  cases hblank

/-- The tokens of a line, without the one for its end. -/
theorem LineLeft.readLines (h : LineLeft text s i ts s') (hi : i ≤ text.length) :
    ReadLines text i ts s'.i := by
  obtain ⟨us, vs, k, rfl, hlead, hseg⟩ := h.segment
  have hvs : ReadLines text k vs s'.i :=
    ⟨hseg.le, fun t ht => ⟨(hseg.within t ht).1, (hseg.within t ht).2.2⟩, hseg.faithful,
      hseg.closes, hseg.chain, hseg.last⟩
  exact (hlead.readLines (hlead.blank.le_length hi)).append hvs hlead.noneClosed

/-- The line feed at the end of a line. -/
theorem ReadLines.endLine (h : ReadLines text i ts j) (hj : j < text.length)
    (hc : charAt text j = '\n') (s : LexState) :
    ReadLines text i (ts ++ [s.token .endLine j (j + 1)]) (j + 1) where
  le := h.le.trans (Nat.le_succ j)
  within := by
    refine List.forall_mem_append.mpr ⟨fun t ht => ?_, List.forall_mem_singleton.mpr ?_⟩
    · exact ⟨(h.within t ht).1, (h.within t ht).2.trans (Nat.le_succ j)⟩
    · exact ⟨h.le, le_rfl⟩
  faithful := by
    refine h.faithful.append (fun _ => ⟨fun _ k h₁ h₂ => ?_, fun _ => ?_⟩) h.le (Nat.le_succ j)
    · obtain rfl : k = j := by omega
      exact not_misread (by rw [hc]; decide) (by rw [hc]; decide)
    · exact ⟨List.forall_mem_singleton.mpr
        (Token.faithful_of_not_bracket rfl ⟨Nat.le_succ j, hj⟩), hj⟩
  closes := List.pairwise_append.mpr ⟨h.closes, List.pairwise_singleton _ _,
    fun t ht u hu _ => by rw [List.mem_singleton.mp hu]; exact (h.within t ht).2⟩
  chain := by
    refine List.isChain_append.mpr ⟨h.chain, .singleton _, fun t ht u hu hclose => ?_⟩
    obtain rfl := Option.mem_some_iff.mp hu
    rw [h.last t ht hclose, skipWhitespace_of_not_blank (by rw [hc]; rfl)]
    rfl
  last t ht hclose := by
    rw [List.getLast?_append_of_ne_nil _ (List.cons_ne_nil _ _)] at ht
    obtain rfl := Option.mem_some_iff.mp ht
    cases hclose

/-- **A call of `_line`**: a closing token is its last one only at the end of the text. -/
theorem LineDone.readLines (h : LineDone text s ts s') (hi : s.i ≤ text.length) :
    ReadLines text s.i ts s'.i ∧ Overrun text ts s'.i ∧
      (s'.i < text.length → NoneClosed ts) := by
  obtain ⟨us, s₁, hleft, ⟨hlt, hc, hi', rfl⟩ | ⟨hstop, hi', rfl⟩⟩ := h.left
  · rw [hi']
    refine ⟨(hleft.readLines hi).endLine hlt hc s₁, .of_le hlt, fun _ t ht hclose => ?_⟩
    rw [List.getLast?_append_of_ne_nil _ (List.cons_ne_nil _ _)] at ht
    obtain rfl := Option.mem_some_iff.mp ht
    cases hclose
  · rw [hi']
    refine ⟨hleft.readLines hi, hleft.overrun, fun hlt t ht hclose => ?_⟩
    have htypes := (hstop hlt).2 t (List.mem_of_getLast? ht)
    rw [hclose] at htypes
    cases htypes

/-- How all lines are left, from the position `i` on. -/
def LinesDone (text : List Char) (i : ℕ) (ts : List Token) (j : ℕ) : Prop :=
  (i < text.length → ReadLines text i ts j ∧ Overrun text ts j ∧ text.length ≤ j) ∧
    (text.length ≤ i → ts = [] ∧ j = i)

theorem lexLoop_readLines (text : List Char) (fuel : ℕ) :
    ∀ s : LexState, GoesOn text .lineStart s.i →
      (lexLoop text fuel).wp s (fun _ ts s' => LinesDone text s.i ts s'.i)
        (fun _ _ _ => True) fun _ => True := by
  induction fuel with
  | zero =>
    intro s _
    simp [lexLoop]
  | succ fuel ih =>
    intro s hgo
    simp only [lexLoop, Gen.wp_bind, Gen.wp_get, Gen.wp_ite, Gen.wp_pure, List.nil_append]
    refine ⟨fun hi => ?_, fun hi => ⟨fun hlt => absurd hlt hi, fun _ => ⟨rfl, rfl⟩⟩⟩
    refine ((line_mode hi hgo).and (line_segment hi hgo)).imp ?_ (fun _ _ _ _ => trivial)
      fun _ _ => trivial
    rintro _ ts s' ⟨⟨-, hgo', -⟩, hdone⟩
    obtain ⟨hlines, hover, hnone⟩ := hdone.readLines hi.le
    refine (ih s' hgo').imp ?_ (fun _ _ _ _ => trivial) fun _ _ => trivial
    rintro _ us s'' ⟨hrest, hend⟩
    refine ⟨fun _ => ?_, fun hge => absurd hi (by omega)⟩
    rcases Nat.lt_or_ge s'.i text.length with hlt | hge
    · obtain ⟨hlines', hover', hge'⟩ := hrest hlt
      exact ⟨hlines.append hlines' (hnone hlt), hover'.append, hge'⟩
    · obtain ⟨rfl, hi''⟩ := hend hge
      rw [List.append_nil, hi'']
      exact ⟨hlines, hover, hge⟩

/-- The tokens of the lines between those that begin and end the document. -/
theorem Lexes.readLines (h : Lexes text ts) : ∃ us j s₀ s₁, LinesDone text 0 us j ∧
    ts = LexState.token s₀ .beginDoc 0 0 :: (us ++
      [LexState.token s₁ .endDoc text.length text.length]) := by
  refine h.of_sat (P := fun ts => ∃ us j s₀ s₁, LinesDone text 0 us j ∧
    ts = LexState.token s₀ .beginDoc 0 0 :: (us ++
      [LexState.token s₁ .endDoc text.length text.length])) fun fuel => ?_
  change (_ : LexM Unit).wp LexState.init _ _ _
  simp only [Gen.wp_bind, Gen.wp_get, Gen.wp_emit, List.nil_append]
  refine (lexLoop_readLines text fuel LexState.init (GoesOn.of_mode rfl rfl (Nat.zero_le _))).imp
    ?_ (fun _ _ _ _ => trivial) fun _ _ => trivial
  exact fun _ us s' hus => ⟨us, s'.i, LexState.init, s', hus, rfl⟩

/-- Both cases of a text, the empty one included. -/
theorem LinesDone.readLines (h : LinesDone text 0 ts j) :
    ReadLines text 0 ts j ∧ Overrun text ts j ∧ text.length ≤ j := by
  rcases Nat.eq_zero_or_pos text.length with hnil | hpos
  · obtain ⟨rfl, rfl⟩ := h.2 hnil.le
    refine ⟨⟨le_rfl, by simp, fun hle => ?_, .nil, .nil, by simp⟩, .of_le hnil.ge, hnil.le⟩
    exact ⟨fun _ k h₁ h₂ => absurd h₁ (by omega), fun _ => ⟨by simp, hle⟩⟩
  · exact h.1 hpos

theorem Misread.lt (h : Misread text k) : k < text.length := by
  rcases h with ⟨⟨hk, -⟩, -⟩ | ⟨⟨hk, -⟩, -⟩
  · exact hk
  · exact hk

/-- Faithful tokens come from a text that is read well. -/
theorem BracketsFaithful.not_misread (hts : BracketsFaithful text ts) (h : Lexes text ts)
    (k : ℕ) : ¬ Misread text k := by
  intro hk
  obtain ⟨us, j, s₀, s₁, hdone, rfl⟩ := h.readLines
  obtain ⟨hlines, hover, hge⟩ := hdone.readLines
  have hus : ∀ t ∈ us, t.Faithful text := fun t ht =>
    hts.faithful t (List.mem_cons_of_mem _ (List.mem_append_left _ ht))
  have hj : j ≤ text.length := by
    by_contra hlt
    obtain ⟨t, ht, hstop⟩ := hover (by omega)
    have := (hus t ht).within
    omega
  exact (hlines.faithful (Nat.zero_le _)).mp ⟨hus, hj⟩ k (Nat.zero_le k) (hk.lt.trans_le hge) hk

/-- **Tokens and brackets.** Where `lex` completes, its tokens are faithful to the brackets of
the text exactly if no section opens with `[@` or `[^`, and no section has a divider that ends
the text or has a closing bracket behind the character after it. -/
theorem hypertext_faithful_iff (text : List Char) (ts : List Token) (h : Lexes text ts) :
    BracketsFaithful text ts ↔ ∀ k, ¬ Misread text k := by
  refine ⟨fun hts => hts.not_misread h, fun hwell => ?_⟩
  obtain ⟨us, j, s₀, s₁, hdone, rfl⟩ := h.readLines
  obtain ⟨hlines, -, hge⟩ := hdone.readLines
  obtain ⟨hus, hj⟩ := (hlines.faithful (Nat.zero_le _)).mpr fun k _ _ => hwell k
  obtain rfl : j = text.length := le_antisymm hj hge
  refine ⟨?_, ?_, ?_⟩
  · refine List.forall_mem_cons.mpr ⟨?_, List.forall_mem_append.mpr ⟨hus, ?_⟩⟩
    · exact Token.faithful_of_not_bracket rfl ⟨le_rfl, Nat.zero_le _⟩
    · exact List.forall_mem_singleton.mpr (Token.faithful_of_not_bracket rfl ⟨le_rfl, le_rfl⟩)
  · refine List.pairwise_cons.mpr ⟨fun _ _ hclose => (by cases hclose), ?_⟩
    refine List.pairwise_append.mpr ⟨?_, List.pairwise_singleton _ _, fun t _ u hu _ hclose => ?_⟩
    · refine hlines.closes.imp fun {t u} hapart hclose _ k _ hstop hu => ?_
      have := hapart hclose
      omega
    · obtain rfl := List.mem_singleton.mp hu
      cases hclose
  · refine List.isChain_cons.mpr ⟨fun _ _ hclose => (by cases hclose), ?_⟩
    refine List.isChain_append.mpr ⟨hlines.chain, .singleton _, fun t ht u hu hclose => ?_⟩
    obtain rfl := Option.mem_some_iff.mp hu
    rw [hlines.last t ht hclose, skipWhitespace_of_le le_rfl]
    rfl

/-- A section in another is read well. -/
theorem hypertext_faithful_nested :
    ∃ ts, Lexes ['[', 'a', '[', 'b', ']', ']'] ts ∧
      BracketsFaithful ['[', 'a', '[', 'b', ']', ']'] ts := by
  have hlex : Lexable ['[', 'a', '[', 'b', ']', ']'] := by decide
  obtain ⟨ts, hts, -⟩ := hlex.lexes
  refine ⟨ts, hts, (hypertext_faithful_iff _ ts hts).mpr fun k hk => ?_⟩
  have hlt := hk.lt
  rcases hk with ⟨-, hnext | hnext⟩ | ⟨⟨-, hdivider, -⟩, -⟩
  · have hmem := List.mem_of_getElem? hnext
    simp at hmem
  · have hmem := List.mem_of_getElem? hnext
    simp at hmem
  · have hnone : ∀ k < 6, charAt ['[', 'a', '[', 'b', ']', ']'] k ≠ '|' := by decide
    exact hnone k hlt hdivider

/-- The opener of a link is taken for that of an anchor. -/
theorem hypertext_misreads_link :
    ¬ ∀ (text : List Char) (ts : List Token), Lexes text ts → BracketsFaithful text ts := by
  intro h
  have hlex : Lexable ['[', '@', 'a', ']'] := by decide
  obtain ⟨ts, hts, -⟩ := hlex.lexes
  have hmis : Misread ['[', '@', 'a', ']'] 0 :=
    .inl ⟨⟨by decide, rfl, 0, by decide⟩, .inl rfl⟩
  exact (h _ ts hts).not_misread hts 0 hmis

end Intent.Py
