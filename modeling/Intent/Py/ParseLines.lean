import Intent.Py.Parse

/-!
# What the parser accepts of what the lexer emits

The parser should answer every line of a completed lexer run, with the node of the line or
with its `LEX_ERROR` token: this is `AnswersLines`. It does so exactly when no `LEX_ERROR` was
emitted and every line is `parsableLine`: blank, a paragraph of texts and of anchors around
one token, or a term with its pivot. Everything else the lexer emits is refused by some
assertion, contract check or unhandled token type: an indented line, a term without a `:`
part, an empty or a nested anchor, and each lexical error.

The proof compares the completed runs of the parser, `Consumes`, with the lines of the token
stream one at a time (`Consumes.first_line`); `DocLines` knows what a next line can begin with.
-/

namespace Intent.Py

/-- The lines of a token stream after its `BEGIN_DOC`, each without the token that ends it. -/
def tokenLines (ts : List Token) : List (List Token) := ts.tail.splitOnP endsLine

/-- The token a part was made of. -/
def Part.token : Part → Token
  | .text t => t
  | .anchor t => t

/-- The kind of body a line has. -/
def bodyStart (l : List Token) : Option TokType :=
  (l.find? fun t => t.ttype = .beginPara ∨ t.ttype = .beginTerm).map (·.ttype)

/-- The nodes that answer a line: one of its `LEX_ERROR` tokens when it has any, and else the
node of its body, made of its tokens. -/
inductive Answers (l : List Token) : List Node → Prop where
  | lexError {e : Token} : e ∈ l → e.ttype = .lexError → Answers l [.lexError e]
  | blank : (∀ t ∈ l, t.ttype ≠ .lexError) → bodyStart l = none → Answers l []
  | paragraph {parts : List Part} : (∀ t ∈ l, t.ttype ≠ .lexError) →
      bodyStart l = some .beginPara → (∀ p ∈ parts, p.token ∈ l) →
      Answers l [.paragraph parts]
  | term {name definition : Token} : (∀ t ∈ l, t.ttype ≠ .lexError) →
      bodyStart l = some .beginTerm → name ∈ l → Answers l [.term name definition]

/-- The nodes answer the lines of the token stream, one line after the other. -/
def AnswersLines (ts : List Token) (nodes : List Node) : Prop :=
  ∃ nss, List.Forall₂ Answers (tokenLines ts) nss ∧ nodes = nss.flatten

/-- `(TEXT | BEGIN_ANCHOR x END_HYPERTEXT)*`, with any one token `x`. -/
def parsableItems : List TokType → Bool
  | [] => true
  | .text :: ts => parsableItems ts
  | .beginAnchor :: _ :: .endHypertext :: ts => parsableItems ts
  | _ => false

/-- A blank line, a paragraph of texts and one-token anchors, or a term with its pivot. -/
def parsableLine : List TokType → Bool
  | [] => true
  | .beginPara :: ts => parsableItems ts
  | [.beginTerm, .name, .pivotTerm] => true
  | [.beginTerm, .name, .pivotTerm, .text] => true
  | _ => false

/-- The token streams every line of which the parser can answer. -/
def Parsable (ts : List Token) : Prop :=
  (∀ t ∈ ts, t.ttype ≠ .lexError) ∧ ∀ l ∈ tokenLines ts, parsableLine (types l) = true

instance (ts : List Token) : Decidable (Parsable ts) := inferInstanceAs (Decidable (_ ∧ _))

section Lines

variable {us l items : List Token} {e : Token} {ns : List Node} {ps : List Part}

/-! ### Parsable lines are answered -/

/-- The tokens of a parsable paragraph make its parts. -/
theorem exists_partsOf (h : parsableItems (types items) = true) :
    ∃ ps, PartsOf items ps ∧ ∀ p ∈ ps, p.token ∈ items := by
  generalize htys : types items = tys at h
  fun_induction parsableItems tys generalizing items with
  | case1 =>
    obtain rfl := List.map_eq_nil_iff.mp htys
    exact ⟨[], .nil, by simp⟩
  | case2 tys ih =>
    obtain ⟨t, ts, rfl, ht, rfl⟩ := List.map_eq_cons_iff.mp htys
    obtain ⟨ps, hps, hmem⟩ := ih rfl h
    refine ⟨.text t :: ps, .text ht hps, fun p hp => ?_⟩
    rcases List.mem_cons.mp hp with rfl | hp
    · exact List.mem_cons_self
    · exact List.mem_cons_of_mem _ (hmem p hp)
  | case3 tt tys ih =>
    obtain ⟨b, ts, rfl, hb, htys⟩ := List.map_eq_cons_iff.mp htys
    obtain ⟨x, ts, rfl, -, htys⟩ := List.map_eq_cons_iff.mp htys
    obtain ⟨e, ts, rfl, he, rfl⟩ := List.map_eq_cons_iff.mp htys
    obtain ⟨ps, hps, hmem⟩ := ih rfl h
    refine ⟨.anchor x :: ps, .anchor hb he hps, fun p hp => ?_⟩
    rcases List.mem_cons.mp hp with rfl | hp
    · exact List.mem_cons_of_mem _ List.mem_cons_self
    · exact List.mem_cons_of_mem _ (List.mem_cons_of_mem _ (List.mem_cons_of_mem _ (hmem p hp)))
  | case4 => cases h

/-- A parsable line is answered, and the parser is then at the line after it. -/
theorem exists_answers (hl : parsableLine (types l) = true)
    (hno : ∀ t ∈ l, t.ttype ≠ .lexError) (he : endsLine e = true) :
    ∃ ms, Answers l ms ∧ ∀ us ns, Consumes us ns → Consumes (l ++ e :: us) (ms ++ ns) := by
  generalize htys : types l = tys at hl
  unfold parsableLine at hl
  split at hl
  · obtain rfl := List.map_eq_nil_iff.mp htys
    exact ⟨[], .blank hno rfl, fun us ns h => .lineEnd he h⟩
  · obtain ⟨b, items, rfl, hb, rfl⟩ := List.map_eq_cons_iff.mp htys
    obtain ⟨ps, hps, hmem⟩ := exists_partsOf hl
    refine ⟨[.paragraph ps], .paragraph hno ?_ fun p hp => List.mem_cons_of_mem b (hmem p hp),
      fun us ns h => .paragraph hb hps he h⟩
    simp [bodyStart, hb]
  · obtain ⟨b, ts, rfl, hb, htys⟩ := List.map_eq_cons_iff.mp htys
    obtain ⟨n, ts, rfl, -, htys⟩ := List.map_eq_cons_iff.mp htys
    obtain ⟨p, ts, rfl, hp, htys⟩ := List.map_eq_cons_iff.mp htys
    obtain rfl := List.map_eq_nil_iff.mp htys
    refine ⟨[.term n e], .term hno ?_ (List.mem_cons_of_mem b List.mem_cons_self),
      fun us ns h => .term hb hp h⟩
    simp [bodyStart, hb]
  · obtain ⟨b, ts, rfl, hb, htys⟩ := List.map_eq_cons_iff.mp htys
    obtain ⟨n, ts, rfl, -, htys⟩ := List.map_eq_cons_iff.mp htys
    obtain ⟨p, ts, rfl, hp, htys⟩ := List.map_eq_cons_iff.mp htys
    obtain ⟨d, ts, rfl, -, htys⟩ := List.map_eq_cons_iff.mp htys
    obtain rfl := List.map_eq_nil_iff.mp htys
    refine ⟨[.term n d], .term hno ?_ (List.mem_cons_of_mem b List.mem_cons_self),
      fun us ns h => .term hb hp (.lineEnd he h)⟩
    simp [bodyStart, hb]
  · cases hl

/-- A token list that ends with the end of a line begins with a whole line. -/
private theorem exists_first_line (us : List Token) (hend : endsLine e = true) :
    ∃ l e' us', us ++ [e] = l ++ e' :: us' ∧ (∀ t ∈ l, endsLine t = false) ∧
      endsLine e' = true ∧ (us' = [] ∨ ∃ vs, us' = vs ++ [e]) ∧ us'.length ≤ us.length := by
  induction us with
  | nil => exact ⟨[], e, [], rfl, List.forall_mem_nil _, hend, .inl rfl, le_rfl⟩
  | cons t us ih =>
    by_cases ht : endsLine t = true
    · refine ⟨[], t, us ++ [e], rfl, List.forall_mem_nil _, ht, .inr ⟨us, rfl⟩, ?_⟩
      simp only [List.length_append, List.length_cons, List.length_nil]
      omega
    · obtain ⟨l, e', us', heq, hl, he', hus, hlen⟩ := ih
      refine ⟨t :: l, e', us', by rw [List.cons_append, heq]; rfl, fun u hu => ?_, he', hus,
        hlen.trans (Nat.le_succ _)⟩
      rcases List.mem_cons.mp hu with rfl | hu
      · simpa using ht
      · exact hl u hu

/-- **Parsable streams are answered.** -/
theorem answers_of_parsable (hend : endsLine e = true) :
    ∀ us, (∀ t ∈ us ++ [e], t.ttype ≠ .lexError) →
      (∀ l ∈ (us ++ [e]).splitOnP endsLine, parsableLine (types l) = true) →
      ∃ nss, List.Forall₂ Answers ((us ++ [e]).splitOnP endsLine) nss ∧
        Consumes (us ++ [e]) nss.flatten := by
  intro us
  induction hn : us.length using Nat.strong_induction_on generalizing us with
  | _ n ih =>
    intro hno hlines
    obtain ⟨l, e', us', heq, hl, he', hus, hlen⟩ := exists_first_line us hend
    rw [heq] at hno hlines ⊢
    rw [List.splitOnP_append_cons_of_forall_mem hl e' he'] at hlines ⊢
    obtain ⟨ms, hms, hcons⟩ := exists_answers (hlines l List.mem_cons_self)
      (fun t ht => hno t (List.mem_append_left _ ht)) he'
    rcases hus with rfl | ⟨vs, rfl⟩
    · refine ⟨[ms, []], .cons hms (.cons ?_ .nil), hcons [] [] .done⟩
      exact .blank (List.forall_mem_nil _) rfl
    · have hlt : vs.length < n := by
        simp only [List.length_append, List.length_singleton] at hlen
        omega
      obtain ⟨nss, hnss, hcons'⟩ := ih vs.length hlt vs rfl
        (fun t ht => hno t (List.mem_append_right _ (List.mem_cons_of_mem _ ht)))
        fun l' hl' => hlines l' (List.mem_cons_of_mem _ hl')
      exact ⟨ms :: nss, .cons hms hnss, hcons _ _ hcons'⟩

/-! ### Only parsable lines are answered -/

theorem parsableItems_of_partsOf (h : PartsOf items ps) : parsableItems (types items) = true := by
  induction h with
  | nil => rfl
  | text ht _ ih => rwa [types_cons, ht, parsableItems]
  | anchor hb he _ ih => rwa [types_cons, types_cons, types_cons, hb, he, parsableItems]

/-- The items of a paragraph do not contain what starts or ends a line. -/
theorem Derives.items_inner {N : Nonterminal} {tys : List TokType} (h : Derives N tys)
    (hN : N = .items ∨ N = .hyper) : ∀ tt ∈ tys, tt ≠ .endLine ∧ tt ≠ .endDoc := by
  induction h with
  | doc | linesNil | linesCons | line | optBodyNone | optBodySome | term | para =>
    simp at hN
  | itemsNil => exact List.forall_mem_nil _
  | itemsText _ ih => exact List.forall_mem_cons.mpr ⟨by decide, ih (.inl rfl)⟩
  | itemsHyper _ _ ih₁ ih₂ =>
    exact List.forall_mem_append.mpr ⟨ih₁ (.inr rfl), ih₂ (.inl rfl)⟩
  | hyper hb _ hd hc ih =>
    rw [List.forall_mem_cons, List.forall_mem_append, List.forall_mem_append]
    refine ⟨?_, ⟨ih (.inl rfl), ?_⟩, ?_⟩
    · cases hb <;> decide
    · cases hd <;> decide
    · cases hc <;> decide

/-- What a line can begin with: neither a closing bracket nor a pivot. -/
def StartsLine (tys : List TokType) : Prop :=
  ∀ tt ∈ tys.head?, tt ≠ .endHypertext ∧ tt ≠ .pivotTerm

theorem StartsLine.cons {tt : TokType} (h : tt ≠ .endHypertext ∧ tt ≠ .pivotTerm)
    (tys : List TokType) : StartsLine (tt :: tys) := fun _ htt => Option.some.inj htt ▸ h

theorem Indentation.startsLine {is tys : List TokType} (hi : Indentation is)
    (h : StartsLine tys) : StartsLine (is ++ tys) := by
  cases hi with
  | indents n =>
    cases n with
    | zero => exact h
    | succ n => exact .cons (by decide) _
  | dedents n =>
    cases n with
    | zero => exact h
    | succ n => exact .cons (by decide) _

theorem Derives.startsLine {bs tys : List TokType} (hb : Derives .optBody bs)
    (h : StartsLine tys) : StartsLine (bs ++ tys) := by
  cases hb with
  | optBodyNone => exact h
  | optBodySome hb => cases hb <;> exact .cons (by decide) _

theorem DocLines.startsLine {ls : List TokType} (h : DocLines ls) :
    StartsLine (ls ++ [.endDoc]) := by
  cases h with
  | last hi hb =>
    rw [List.append_assoc]
    exact hi.startsLine (hb.startsLine (.cons (by decide) _))
  | line hi hb =>
    rw [List.append_assoc, List.append_assoc]
    exact hi.startsLine (hb.startsLine (.cons (by decide) _))
  | abandoned hi =>
    rw [List.append_assoc]
    exact hi.startsLine (.cons (by decide) _)

/-- The paragraph loop stops at the first token that ends a line: an anchor could only take
that token as its text if the next line began with a closing bracket. -/
theorem PartsOf.stops_at_line (h : PartsOf items ps) (hl : ∀ t ∈ l, endsLine t = false)
    (he : endsLine e = true) (hus : StartsLine (types us)) :
    (∀ e' rest, endsLine e' = true → items ++ e' :: rest = l ++ e :: us →
      items = l ∧ rest = us) ∧ items ≠ l ++ e :: us := by
  induction h generalizing l with
  | nil =>
    refine ⟨fun e' rest he' heq => ?_, fun heq => by cases l <;> cases heq⟩
    rcases l with _ | ⟨t, l⟩
    · exact ⟨rfl, (List.cons.inj heq).2⟩
    · obtain ⟨rfl, -⟩ := List.cons.inj heq
      simp [hl e' List.mem_cons_self] at he'
  | @text t items ps ht _ ih =>
    rcases l with _ | ⟨u, l⟩
    · have hne : t ≠ e := by
        rintro rfl
        exact not_endsLine ht (by decide) he
      exact ⟨fun e' rest _ heq => absurd (List.cons.inj heq).1 hne,
        fun heq => absurd (List.cons.inj heq).1 hne⟩
    · obtain ⟨ih₁, ih₂⟩ := ih fun v hv => hl v (List.mem_cons_of_mem _ hv)
      refine ⟨fun e' rest he' heq => ?_, fun heq => ih₂ (List.cons.inj heq).2⟩
      simp only [List.cons_append, List.cons.injEq] at heq
      obtain ⟨rfl, heq⟩ := heq
      obtain ⟨rfl, rfl⟩ := ih₁ e' rest he' heq
      exact ⟨rfl, rfl⟩
  | @anchor b x f items ps hb hf _ ih =>
    have hbe : b ≠ e := by
      rintro rfl
      exact not_endsLine hb (by decide) he
    have hfe : f ≠ e := by
      rintro rfl
      exact not_endsLine hf (by decide) he
    have hhead : ∀ vs, us ≠ f :: vs := by
      rintro vs rfl
      exact (hus f.ttype rfl).1 hf
    rcases l with _ | ⟨u, _ | ⟨v, _ | ⟨w, l⟩⟩⟩
    · exact ⟨fun e' rest _ heq => absurd (List.cons.inj heq).1 hbe,
        fun heq => absurd (List.cons.inj heq).1 hbe⟩
    · refine ⟨fun e' rest _ heq => ?_, fun heq => ?_⟩
      all_goals
        simp only [List.cons_append, List.nil_append, List.cons.injEq] at heq
        exact absurd heq.2.2.symm (hhead _)
    · refine ⟨fun e' rest _ heq => ?_, fun heq => ?_⟩
      all_goals
        simp only [List.cons_append, List.nil_append, List.cons.injEq] at heq
        exact absurd heq.2.2.1 hfe
    · obtain ⟨ih₁, ih₂⟩ := ih (l := l) fun v' hv => hl v' (by simp [hv])
      refine ⟨fun e' rest he' heq => ?_, fun heq => ?_⟩
      · simp only [List.cons_append, List.cons.injEq] at heq
        obtain ⟨rfl, rfl, rfl, heq⟩ := heq
        obtain ⟨rfl, rfl⟩ := ih₁ e' rest he' heq
        exact ⟨rfl, rfl⟩
      · simp only [List.cons_append, List.cons.injEq] at heq
        exact ih₂ heq.2.2.2

/-- What the main loop can meet next. -/
private theorem Consumes.head {t : Token} (h : Consumes (t :: us) ns) :
    endsLine t = true ∨ t.ttype = .beginPara ∨ t.ttype = .beginTerm ∨ t.ttype = .lexError := by
  cases h with
  | lineEnd he => exact .inl he
  | paragraph hb => exact .inr (.inl hb)
  | lastParagraph hb => exact .inr (.inl hb)
  | term hb => exact .inr (.inr (.inl hb))
  | lexError ht => exact .inr (.inr (.inr ht))

private theorem Consumes.of_lineEnd (h : Consumes (e :: us) ns) (he : endsLine e = true) :
    Consumes us ns := by
  cases h with
  | lineEnd _ h => exact h
  | paragraph hb => exact absurd he (not_endsLine hb (by decide))
  | lastParagraph hb => exact absurd he (not_endsLine hb (by decide))
  | term hb => exact absurd he (not_endsLine hb (by decide))
  | lexError ht => exact absurd he (not_endsLine ht (by decide))

private theorem Consumes.of_beginPara {b : Token} (h : Consumes (b :: us) ns)
    (hb : b.ttype = .beginPara) : ∃ items ps, PartsOf items ps ∧
      ((∃ e rest ns', endsLine e = true ∧ us = items ++ e :: rest ∧ Consumes rest ns') ∨
        us = items) := by
  cases h with
  | lineEnd he => exact absurd he (not_endsLine hb (by decide))
  | paragraph _ hps he h => exact ⟨_, _, hps, .inl ⟨_, _, _, he, rfl, h⟩⟩
  | lastParagraph _ hps => exact ⟨_, _, hps, .inr rfl⟩
  | term hb' => simp [hb] at hb'
  | lexError ht => simp [hb] at ht

private theorem Consumes.of_beginTerm {b : Token} (h : Consumes (b :: us) ns)
    (hb : b.ttype = .beginTerm) : ∃ n p d rest ns', us = n :: p :: d :: rest ∧
      p.ttype = .pivotTerm ∧ Consumes rest ns' := by
  cases h with
  | lineEnd he => exact absurd he (not_endsLine hb (by decide))
  | paragraph hb' => simp [hb] at hb'
  | lastParagraph hb' => simp [hb] at hb'
  | term _ hp h => exact ⟨_, _, _, _, _, rfl, hp, h⟩
  | lexError ht => simp [hb] at ht

/-- An indented line is refused at its first token. -/
private theorem Indentation.eq_nil {is bs : List TokType} (hi : Indentation is)
    (hl : types l = is ++ bs) (h : Consumes (l ++ e :: us) ns) : is = [] := by
  have hrefused : ∀ tt tys, (tt = .indent ∨ tt = .dedent) → types l ≠ tt :: tys := by
    intro tt tys htt heq
    obtain ⟨t, ts, rfl, rfl, -⟩ := List.map_eq_cons_iff.mp heq
    rcases h.head with he | hb
    · rcases htt with htt | htt <;> exact not_endsLine htt (by decide) he
    · rcases htt with htt | htt <;> simp [htt] at hb
  cases hi with
  | indents n =>
    cases n with
    | zero => rfl
    | succ n => exact absurd hl (hrefused _ _ (.inl rfl))
  | dedents n =>
    cases n with
    | zero => rfl
    | succ n => exact absurd hl (hrefused _ _ (.inr rfl))

/-- A paragraph that the parser gets through. -/
private theorem Consumes.first_line_para {b : Token} (h : Consumes (b :: (items ++ e :: us)) ns)
    (hb : b.ttype = .beginPara) (hitems : Derives .items (types items)) (he : endsLine e = true)
    (hus : StartsLine (types us)) :
    parsableItems (types items) = true ∧ ∃ ns', Consumes us ns' := by
  have hinner : ∀ t ∈ items, endsLine t = false := by
    intro t ht
    have := not_endsLine rfl (hitems.items_inner (.inl rfl) t.ttype (List.mem_map_of_mem ht))
    simpa using this
  obtain ⟨items', ps, hps, hrest⟩ := h.of_beginPara hb
  obtain ⟨hstop, hnever⟩ := hps.stops_at_line hinner he hus
  rcases hrest with ⟨e', rest, ns', he', heq, hcons⟩ | heq
  · obtain ⟨rfl, rfl⟩ := hstop e' rest he' heq.symm
    exact ⟨parsableItems_of_partsOf hps, ns', hcons⟩
  · exact absurd heq.symm hnever

/-- A term that the parser gets through has its pivot. -/
private theorem Consumes.first_line_term {b : Token} {tys : List TokType}
    (h : Consumes (b :: (l ++ e :: us)) ns) (hb : b.ttype = .beginTerm) (hrest : TermRest tys)
    (hl : types l = tys) (he : endsLine e = true) (hus : StartsLine (types us)) :
    parsableLine (.beginTerm :: tys) = true ∧ ∃ ns', Consumes us ns' := by
  obtain ⟨n, p, d, rest, ns', heq, hp, hcons⟩ := h.of_beginTerm hb
  cases hrest with
  | none =>
    obtain rfl := List.map_eq_nil_iff.mp hl
    simp only [List.nil_append, List.cons.injEq] at heq
    exact absurd hp (hus p.ttype (by rw [heq.2]; rfl)).2
  | name =>
    obtain ⟨n', ts, rfl, -, hts⟩ := List.map_eq_cons_iff.mp hl
    obtain rfl := List.map_eq_nil_iff.mp hts
    simp only [List.cons_append, List.nil_append, List.cons.injEq] at heq
    exact absurd he (not_endsLine (heq.2.1 ▸ hp) (by decide))
  | pivot =>
    refine ⟨rfl, ns', ?_⟩
    obtain ⟨n', ts, rfl, -, hts⟩ := List.map_eq_cons_iff.mp hl
    obtain ⟨p', ts, rfl, -, hts⟩ := List.map_eq_cons_iff.mp hts
    obtain rfl := List.map_eq_nil_iff.mp hts
    simp only [List.cons_append, List.nil_append, List.cons.injEq] at heq
    rwa [heq.2.2.2]
  | defn =>
    refine ⟨rfl, ns', ?_⟩
    obtain ⟨n', ts, rfl, -, hts⟩ := List.map_eq_cons_iff.mp hl
    obtain ⟨p', ts, rfl, -, hts⟩ := List.map_eq_cons_iff.mp hts
    obtain ⟨d', ts, rfl, -, hts⟩ := List.map_eq_cons_iff.mp hts
    obtain rfl := List.map_eq_nil_iff.mp hts
    simp only [List.cons_append, List.nil_append, List.cons.injEq] at heq
    rw [← heq.2.2.2] at hcons
    exact hcons.of_lineEnd he

/-- **One line.** A line of the lexer that the parser gets through is parsable, and the parser
is then at the line after it. -/
theorem Consumes.first_line {is bs : List TokType} (h : Consumes (l ++ e :: us) ns)
    (hi : Indentation is) (hbody : Derives .optBody bs) (hl : types l = is ++ bs)
    (he : endsLine e = true) (hus : StartsLine (types us)) :
    parsableLine (types l) = true ∧ ∃ ns', Consumes us ns' := by
  obtain rfl := hi.eq_nil hl h
  rw [List.nil_append] at hl
  cases hbody with
  | optBodyNone =>
    obtain rfl := List.map_eq_nil_iff.mp hl
    exact ⟨rfl, ns, h.of_lineEnd he⟩
  | optBodySome hbody =>
    cases hbody with
    | para hitems =>
      obtain ⟨b, items, rfl, hb, rfl⟩ := List.map_eq_cons_iff.mp hl
      rw [types_cons, hb]
      exact h.first_line_para hb hitems he hus
    | term hrest =>
      obtain ⟨b, ts, rfl, hb, hts⟩ := List.map_eq_cons_iff.mp hl
      rw [hl]
      exact h.first_line_term hb hrest hts he hus

/-- Tokens with the types of two lists in a row. -/
private theorem exists_of_types_eq_append {tys₁ tys₂ : List TokType}
    (h : types us = tys₁ ++ tys₂) : ∃ us₁ us₂, us = us₁ ++ us₂ ∧ types us₁ = tys₁ ∧
      types us₂ = tys₂ :=
  List.map_eq_append_iff.mp h

/-- The tokens before the end of a line do not end it. -/
private theorem not_endsLine_of_body {is bs : List TokType} (hi : Indentation is)
    (hb : Derives .optBody bs) (hl : types l = is ++ bs) : ∀ t ∈ l, endsLine t = false := by
  have htys : ∀ tt ∈ is ++ bs, tt ≠ .endLine ∧ tt ≠ .endDoc := by
    refine List.forall_mem_append.mpr ⟨fun tt htt => ?_, ?_⟩
    · cases hi with
      | indents n => rw [List.eq_of_mem_replicate htt]; decide
      | dedents n => rw [List.eq_of_mem_replicate htt]; decide
    · cases hb with
      | optBodyNone => exact List.forall_mem_nil _
      | optBodySome hb =>
        cases hb with
        | term h => cases h <;> decide
        | para h => exact List.forall_mem_cons.mpr ⟨by decide, h.items_inner (.inl rfl)⟩
  intro t ht
  have := not_endsLine rfl (htys t.ttype (hl ▸ List.mem_map_of_mem ht))
  simpa using this

/-- **All lines.** -/
theorem Consumes.lines {ls : List TokType} (hls : DocLines ls) (h : Consumes us ns)
    (hus : types us = ls ++ [.endDoc]) :
    ∀ l ∈ us.splitOnP endsLine, parsableLine (types l) = true := by
  induction hls generalizing us ns with
  | @last is bs hi hb =>
    obtain ⟨l, es, rfl, hl, hes⟩ := exists_of_types_eq_append hus
    obtain ⟨e, ts, rfl, he, hts⟩ := List.map_eq_cons_iff.mp hes
    obtain rfl := List.map_eq_nil_iff.mp hts
    have he' : endsLine e = true := by simp [endsLine, he]
    rw [List.splitOnP_append_cons_of_forall_mem (not_endsLine_of_body hi hb hl) e he']
    have hfirst := (h.first_line hi hb hl he' (by simp [StartsLine, types])).1
    exact List.forall_mem_cons.mpr ⟨hfirst, List.forall_mem_singleton.mpr rfl⟩
  | @line is bs ls hi hb hls ih =>
    rw [List.append_assoc] at hus
    obtain ⟨l, es, rfl, hl, hes⟩ := exists_of_types_eq_append hus
    obtain ⟨e, us, rfl, he, hus⟩ := List.map_eq_cons_iff.mp hes
    have he' : endsLine e = true := by simp [endsLine, he]
    rw [List.splitOnP_append_cons_of_forall_mem (not_endsLine_of_body hi hb hl) e he']
    have hstarts : StartsLine (types us) := by
      rw [types, hus]
      exact hls.startsLine
    obtain ⟨hline, ns', hcons⟩ := h.first_line hi hb hl he' hstarts
    exact List.forall_mem_cons.mpr ⟨hline, ih hcons hus⟩
  | @abandoned is ls hi hls _ =>
    -- after the name the parser expects a pivot
    rw [List.append_assoc] at hus
    obtain ⟨l, es, rfl, hl, hes⟩ := exists_of_types_eq_append hus
    obtain ⟨b, us, rfl, hb, hus⟩ := List.map_eq_cons_iff.mp hes
    rw [← List.append_nil is] at hl
    obtain rfl := hi.eq_nil hl h
    obtain rfl := List.map_eq_nil_iff.mp hl
    obtain ⟨n, p, d, rest, ns', rfl, hp, -⟩ := Consumes.of_beginTerm h hb
    have hstarts := hls.startsLine
    have htail : types (p :: d :: rest) = ls ++ [.endDoc] :=
      (List.cons.inj (List.cons.inj hes).2).2
    rw [← htail] at hstarts
    exact absurd hp (hstarts p.ttype rfl).2

theorem Consumes.not_lexError (h : Consumes us ns) (hno : ∀ t ∈ us, t.ttype ≠ .lexError)
    (t : Token) : .lexError t ∉ ns := by
  induction h with
  | done => exact List.not_mem_nil
  | lineEnd _ _ ih => exact ih fun u hu => hno u (List.mem_cons_of_mem _ hu)
  | paragraph _ _ _ _ ih =>
    have := ih fun u hu => hno u (by simp [hu])
    simpa using this
  | lastParagraph => simp
  | term _ _ _ ih =>
    have := ih fun u hu => hno u (by simp [hu])
    simpa using this
  | lexError ht => exact absurd ht (hno _ List.mem_cons_self)

/-- A line that is answered otherwise than with an error has none. -/
private theorem Answers.no_lexError {ms : List Node} (h : Answers l ms)
    (hms : ∀ t, .lexError t ∉ ms) : ∀ t ∈ l, t.ttype ≠ .lexError := by
  cases h with
  | lexError => exact absurd List.mem_cons_self (hms _)
  | blank hno => exact hno
  | paragraph hno => exact hno
  | term hno => exact hno

private theorem Answers.not_syntaxError {ms : List Node} (h : Answers l ms) (msg : String) :
    .syntaxError msg ∉ ms := by
  cases h <;> simp

/-- Every token that does not end a line is in a line. -/
private theorem exists_mem_splitOnP {t : Token} (ht : t ∈ us) (hend : endsLine t = false) :
    ∃ l ∈ us.splitOnP endsLine, t ∈ l := by
  induction us with
  | nil => cases ht
  | cons u us ih =>
    rw [List.splitOnP_cons_eq_if_modifyHead]
    rcases List.mem_cons.mp ht with rfl | ht
    · rw [if_neg (by simp [hend])]
      obtain ⟨l, ls, hls⟩ := List.exists_cons_of_ne_nil (List.splitOnP_ne_nil endsLine us)
      rw [hls]
      exact ⟨t :: l, List.mem_cons_self, List.mem_cons_self⟩
    · obtain ⟨l, hl, htl⟩ := ih ht
      split_ifs
      · exact ⟨l, List.mem_cons_of_mem _ hl, htl⟩
      · obtain ⟨l', ls, hls⟩ := List.exists_cons_of_ne_nil (List.splitOnP_ne_nil endsLine us)
        rw [hls] at hl ⊢
        rcases List.mem_cons.mp hl with rfl | hl
        · exact ⟨u :: l, List.mem_cons_self, List.mem_cons_of_mem _ htl⟩
        · exact ⟨l, List.mem_cons_of_mem _ hl, htl⟩

end Lines

/-! ### The whole stream -/

/-- The answers to the lines of a stream, seen together. -/
private theorem AnswersLines.mem {ts : List Token} {nodes : List Node}
    (h : AnswersLines ts nodes) :
    (∀ msg, .syntaxError msg ∉ nodes) ∧ ((∀ t, .lexError t ∉ nodes) →
      ∀ l ∈ tokenLines ts, ∀ t ∈ l, t.ttype ≠ .lexError) := by
  obtain ⟨nss, hnss, rfl⟩ := h
  generalize tokenLines ts = ls at hnss
  induction hnss with
  | nil => simp
  | @cons l ms ls nss hms _ ih =>
    simp only [List.flatten_cons, List.mem_append, not_or]
    refine ⟨fun msg => ⟨hms.not_syntaxError msg, ih.1 msg⟩, fun hno => ?_⟩
    exact List.forall_mem_cons.mpr ⟨hms.no_lexError fun t => (hno t).1, ih.2 fun t => (hno t).2⟩

/-- **What the parser accepts.** Over a run of `lex` that completes, `parse_text` completes and
answers every line, with its node or its `LEX_ERROR`, exactly when the stream is `Parsable`. -/
theorem parse_accepts_iff (text : List Char) (fuel : ℕ)
    (hlex : (lex text fuel).ending = .returned ()) :
    (parseText text fuel).ending = .returned () ∧
        AnswersLines (lex text fuel).yields (parseText text fuel).yields ↔
      Parsable (lex text fuel).yields := by
  obtain ⟨ls, hts, hls⟩ := Lexes.docLines ⟨fuel, rfl, hlex⟩
  have hempty := lex_emptyError text fuel
  have hparse : parseText text fuel = parseStream
      ⟨(lex text fuel).yields.filter (fun t => t.ttype ≠ .lexError), .returned ()⟩ := by
    rw [parseText, syntaxCheckedTokenStream, hlex, checkLoop_eq_filter hempty (by simp),
      List.nil_append]
  rw [hparse]
  generalize (lex text fuel).yields = ts at hts
  obtain ⟨d, us, rfl, hd, hus⟩ := List.map_eq_cons_iff.mp hts
  have hfilter : (d :: us).filter (fun t => t.ttype ≠ .lexError) =
      d :: us.filter (fun t => t.ttype ≠ .lexError) :=
    List.filter_cons_of_pos (by simp [hd])
  constructor
  · rintro ⟨hret, hans⟩
    obtain ⟨hnot, hlines⟩ := hans.mem
    rw [hfilter] at hret hans hnot hlines
    have hcons := (Trace.Sat.of_returned parseStream_sound hret).resolve_right (hnot _)
    have hno : ∀ l ∈ tokenLines (d :: us), ∀ t ∈ l, t.ttype ≠ .lexError :=
      hlines (hcons.not_lexError fun t ht => by simpa using (List.mem_filter.mp ht).2)
    have hno' : ∀ t ∈ us, t.ttype ≠ .lexError := by
      intro t ht hlexErr
      obtain ⟨l, hl, htl⟩ := exists_mem_splitOnP ht
        (by simpa using not_endsLine hlexErr (by decide))
      exact hno l hl t htl hlexErr
    rw [List.filter_eq_self.mpr fun t ht => by simpa using hno' t ht] at hcons
    exact ⟨List.forall_mem_cons.mpr ⟨by simp [hd], hno'⟩, Consumes.lines hls hcons hus⟩
  · rintro ⟨hno, hlines⟩
    rw [List.filter_eq_self.mpr fun t ht => by simpa using hno t ht]
    obtain ⟨us, es, rfl, -, hes⟩ := List.map_eq_append_iff.mp hus
    obtain ⟨e, es, rfl, he, hes⟩ := List.map_eq_cons_iff.mp hes
    obtain rfl := List.map_eq_nil_iff.mp hes
    obtain ⟨nss, hnss, hcons⟩ := answers_of_parsable (e := e) (by simp [endsLine, he]) us
      (fun t ht => hno t (List.mem_cons_of_mem _ ht)) hlines
    obtain ⟨_, ns, s, heq, rfl⟩ := (parseStream_complete hd hcons).exists_returned
    rw [heq]
    exact ⟨rfl, nss, hnss, rfl⟩

/-- A term without a definition part: the parser asserts a pivot after its name. -/
theorem parse_refuses_bare_term : ¬ ∀ (text : List Char) (fuel : ℕ),
    (lex text fuel).ending = .returned () →
      (parseText text fuel).ending = .returned () ∧
        AnswersLines (lex text fuel).yields (parseText text fuel).yields := by
  intro h
  have hraised : (parseText ['-', 'a'] 20).ending = .raised .assertionError := by decide +kernel
  have hret := (h ['-', 'a'] 20 (by decide +kernel)).1
  rw [hraised] at hret
  cases hret

/-- A paragraph with an anchor, and a term with an empty definition. -/
theorem parse_accepts_anchor :
    (parseText ['x', '[', 'a', ']', '\n', '-', 'b', ':'] 20).ending = .returned () ∧
      AnswersLines (lex ['x', '[', 'a', ']', '\n', '-', 'b', ':'] 20).yields
        (parseText ['x', '[', 'a', ']', '\n', '-', 'b', ':'] 20).yields :=
  (parse_accepts_iff _ 20 (by decide +kernel)).mpr (by decide +kernel)

end Intent.Py
