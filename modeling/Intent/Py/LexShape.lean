import Intent.Py.LexMode

/-!
# The shape of the token stream

The token types of a completed run are derived by a small grammar, `Derives`, with one
nonterminal for each generator of the lexer. A hypertext section is an opener, texts and
nested sections, an optional divider with its text, and one closing: `END_HYPERTEXT`, or a
`LEX_ERROR` that may be followed by the rest of the line.

Each generator is proved to yield a phrase of its nonterminal (`hypertext_shape`,
`paragraph_shape`, `line_shape`, …). That brackets balance is a property of the grammar alone
(`Derives.balanced`). `DocLines` says a little more than the grammar about where a line may
miss its `END_LINE`; the parser depends on it.
-/

namespace Intent.Py

/-- The nonterminals of the token grammar. -/
inductive Nonterminal where
  | doc | lines | line | optBody | body | items | hyper
  deriving DecidableEq, Repr

/-- `B`: the openers of a section. -/
inductive IsOpener : TokType → Prop where
  | anchor : IsOpener .beginAnchor
  | link : IsOpener .beginLink
  | aside : IsOpener .beginAside

/-- `INDENT* | DEDENT*`. -/
inductive Indentation : List TokType → Prop where
  | indents (n : ℕ) : Indentation (List.replicate n .indent)
  | dedents (n : ℕ) : Indentation (List.replicate n .dedent)

/-- `(NAME (PIVOT_TERM TEXT?)?)?`. -/
inductive TermRest : List TokType → Prop where
  | none : TermRest []
  | name : TermRest [.name]
  | pivot : TermRest [.name, .pivotTerm]
  | defn : TermRest [.name, .pivotTerm, .text]

/-- `(HYPERTEXT_DIVIDER TEXT?)?`. -/
inductive Target : List TokType → Prop where
  | none : Target []
  | divider : Target [.hypertextDivider]
  | text : Target [.hypertextDivider, .text]

/-- `END_HYPERTEXT | LEX_ERROR UNLEXED?`. -/
inductive Closing : List TokType → Prop where
  | closed : Closing [.endHypertext]
  | error : Closing [.lexError]
  | unlexed : Closing [.lexError, .unlexed]

/-- `END_LINE?`. -/
inductive LineEnd : List TokType → Prop where
  | none : LineEnd []
  | some : LineEnd [.endLine]

/-- The phrases of each nonterminal. -/
inductive Derives : Nonterminal → List TokType → Prop where
  /-- `Doc ::= BEGIN_DOC Line* END_DOC` -/
  | doc {ls : List TokType} : Derives .lines ls → Derives .doc (.beginDoc :: (ls ++ [.endDoc]))
  | linesNil : Derives .lines []
  | linesCons {l ls : List TokType} :
      Derives .line l → Derives .lines ls → Derives .lines (l ++ ls)
  /-- `Line ::= (INDENT* | DEDENT*) Body? END_LINE?` -/
  | line {is bs es : List TokType} :
      Indentation is → Derives .optBody bs → LineEnd es → Derives .line (is ++ bs ++ es)
  | optBodyNone : Derives .optBody []
  | optBodySome {bs : List TokType} : Derives .body bs → Derives .optBody bs
  /-- `Body ::= BEGIN_TERM (NAME (PIVOT_TERM TEXT?)?)? | BEGIN_PARA (TEXT | H)*` -/
  | term {ts : List TokType} : TermRest ts → Derives .body (.beginTerm :: ts)
  | para {ts : List TokType} : Derives .items ts → Derives .body (.beginPara :: ts)
  | itemsNil : Derives .items []
  | itemsText {ts : List TokType} : Derives .items ts → Derives .items (.text :: ts)
  | itemsHyper {hs ts : List TokType} :
      Derives .hyper hs → Derives .items ts → Derives .items (hs ++ ts)
  /-- `H ::= B (TEXT | H)* (HYPERTEXT_DIVIDER TEXT?)? (END_HYPERTEXT | LEX_ERROR UNLEXED?)` -/
  | hyper {b : TokType} {ts ds cs : List TokType} :
      IsOpener b → Derives .items ts → Target ds → Closing cs →
      Derives .hyper (b :: (ts ++ ds ++ cs))

/-- The number of section openers. -/
def openers (ts : List TokType) : ℕ :=
  ts.countP (fun t => t = .beginAnchor ∨ t = .beginLink ∨ t = .beginAside)

/-- The number of tokens that close a section. -/
def closers (ts : List TokType) : ℕ := ts.count .endHypertext + ts.count .lexError

@[simp] theorem openers_nil : openers [] = 0 := rfl
@[simp] theorem closers_nil : closers [] = 0 := rfl

@[simp]
theorem openers_append (ts us : List TokType) : openers (ts ++ us) = openers ts + openers us :=
  List.countP_append

@[simp]
theorem closers_append (ts us : List TokType) : closers (ts ++ us) = closers ts + closers us := by
  simp only [closers, List.count_append]
  omega

theorem openers_cons (t : TokType) (ts : List TokType) :
    openers (t :: ts) = openers [t] + openers ts := by
  rw [← openers_append]
  rfl

theorem closers_cons (t : TokType) (ts : List TokType) :
    closers (t :: ts) = closers [t] + closers ts := by
  rw [← closers_append]
  rfl

/-- **Balance.** In every phrase of the grammar each section opener has one closer. -/
theorem Derives.balanced {N : Nonterminal} {ts : List TokType} (h : Derives N ts) :
    openers ts = closers ts := by
  induction h with
  | doc _ ih =>
    rw [openers_cons, closers_cons, openers_append, closers_append, ih]
    rfl
  | linesNil => rfl
  | linesCons _ _ ih₁ ih₂ => rw [openers_append, closers_append, ih₁, ih₂]
  | @line is bs es hi _ he ih =>
    have hi' : openers is = closers is := by
      cases hi with
      | indents n => simp [openers, closers, List.countP_replicate, List.count_replicate]
      | dedents n => simp [openers, closers, List.countP_replicate, List.count_replicate]
    have he' : openers es = closers es := by cases he <;> rfl
    simp only [openers_append, closers_append, hi', he', ih]
  | optBodyNone => rfl
  | optBodySome _ ih => exact ih
  | term h => cases h <;> rfl
  | para _ ih =>
    rw [openers_cons, closers_cons, ih]
    rfl
  | itemsNil => rfl
  | itemsText _ ih =>
    rw [openers_cons, closers_cons, ih]
    rfl
  | itemsHyper _ _ ih₁ ih₂ => rw [openers_append, closers_append, ih₁, ih₂]
  | @hyper b is ds cs hb _ hd hc ih =>
    rw [openers_cons, closers_cons]
    have hd' : openers ds = 0 ∧ closers ds = 0 := by cases hd <;> exact ⟨rfl, rfl⟩
    have hc' : openers cs = 0 ∧ closers cs = 1 := by cases hc <;> exact ⟨rfl, rfl⟩
    have hb' : openers [b] = 1 ∧ closers [b] = 0 := by cases hb <;> exact ⟨rfl, rfl⟩
    simp only [openers_append, closers_append, hd', hc', hb', ih]
    omega

/-! ### Sections -/

section Generators

variable {text : List Char} {s : LexState}

/-- The token types of a list of tokens. -/
def types (ts : List Token) : List TokType := ts.map (·.ttype)

@[simp] theorem types_nil : types [] = [] := rfl

@[simp] theorem types_cons (t : Token) (ts : List Token) :
    types (t :: ts) = t.ttype :: types ts := rfl

@[simp] theorem types_append (ts us : List Token) : types (ts ++ us) = types ts ++ types us :=
  List.map_append

@[simp] theorem token_ttype (s : LexState) (tt : TokType) (b e : ℕ) :
    (s.token tt b e).ttype = tt := rfl

/-- An optional text before a list of items. -/
private theorem items_optText {c : Bool} {t : Token} (ht : t.ttype = .text) {ts : List TokType}
    (h : Derives .items ts) : Derives .items (types (if c then [t] else []) ++ ts) := by
  cases c with
  | false => exact h
  | true =>
    simp only [if_true, types_cons, types_nil, ht, List.cons_append, List.nil_append]
    exact .itemsText h

/-- What the loop of a section yields: items, the part after the divider, and the closing
bracket when the section was closed. -/
def LoopShape (ecode : Option ErrorCode) (ts : List TokType) : Prop :=
  ∃ is ds, Derives .items is ∧ Target ds ∧
    ts = is ++ ds ++ (if ecode = none then [.endHypertext] else [])

private theorem LoopShape.items {ecode : Option ErrorCode} {ts is : List TokType}
    (h : LoopShape ecode ts) (hi : ∀ {us}, Derives .items us → Derives .items (is ++ us)) :
    LoopShape ecode (is ++ ts) := by
  obtain ⟨js, ds, hj, hd, rfl⟩ := h
  exact ⟨is ++ js, ds, hi hj, hd, by simp only [List.append_assoc]⟩

theorem lexError_shape {code : ErrorCode} :
    (lexError text code).wp s (fun _ ts _ => Closing (types ts)) (fun _ _ _ => True)
      fun _ => True := by
  simp only [lexError, Gen.wp_bind, Gen.wp_get, Gen.wp_emit]
  cases findLineBreak text s.i with
  | none => exact .error
  | some stop =>
    rw [wp_emitIf]
    cases decide (s.i < stop) with
    | false => exact .error
    | true => exact .unlexed

/-- The loop's `ecode` decides the closing that the `finally` block adds. -/
private theorem closing_shape {ecode : Option ErrorCode} {b : TokType} (hb : IsOpener b)
    {ts : List TokType} (h : LoopShape ecode ts) :
    (match ecode with
      | none => (pure () : LexM Unit)
      | some code => lexError text code).wp s
      (fun _ us _ => Derives .hyper (b :: (ts ++ types us))) (fun _ _ _ => True) fun _ => True := by
  obtain ⟨is, ds, hi, hd, rfl⟩ := h
  cases ecode with
  | none =>
    simp only [Gen.wp_pure, if_true, types_nil, List.append_nil]
    exact .hyper hb hi hd .closed
  | some code =>
    refine lexError_shape.imp (fun _ us _ h => ?_) (fun _ _ _ h => h) fun _ h => h
    simp only [reduceCtorEq, if_false, List.append_nil]
    exact .hyper hb hi hd h

private theorem isOpener_opener (c : Option Char) : IsOpener (opener c).1 := by
  unfold opener
  split_ifs
  · exact .link
  · exact .aside
  · exact .anchor

private theorem hypertextTarget_shape :
    (hypertextTarget text).wp s
      (fun ecode ts _ => ∃ ds, (ds = [] ∨ ds = [.text]) ∧
        types ts = ds ++ if ecode = none then [.endHypertext] else [])
      (fun _ _ _ => True) fun _ => True := by
  simp only [hypertextTarget, Gen.wp_bind, Gen.wp_get]
  cases breakOnAny text [']'] s.i text.length with
  | none => trivial
  | some q =>
    obtain ⟨b, e, j, c⟩ := q
    simp only [Gen.wp_bind, Gen.wp_modify, Gen.wp_emit, Gen.wp_ite, Gen.wp_pure, wp_emitIf,
      List.nil_append, List.append_nil]
    refine ⟨fun _ => ⟨types (if decide (b < e) then [s.token .text b e] else []), ?_, by simp⟩,
      fun _ => ⟨types (if decide (b < e) then [s.token .text b e] else []), ?_, by simp⟩⟩
    all_goals
      cases decide (b < e) with
      | false => exact .inl rfl
      | true => exact .inr rfl

/-- Past the end of the text the loop is left at its test. -/
private theorem hypertextLoop_of_ge {breakers : List Char} {fuel : ℕ} (h : text.length ≤ s.i) :
    (hypertextLoop text breakers fuel).wp s (fun ecode ts _ => ecode ≠ none ∧ ts = [])
      (fun _ _ _ => True) fun _ => True := by
  cases fuel with
  | zero => trivial
  | succ fuel =>
    simp only [hypertextLoop, Gen.wp_bind, Gen.wp_get, Gen.wp_ite]
    exact ⟨fun hlt => absurd hlt (by omega), fun _ => ⟨by simp, rfl⟩⟩

/-- **Sections.** A completed section is a phrase of `H`; its loop yields the phrase without
the opener and without an error at its end. -/
theorem hypertext_shape (fuel : ℕ) :
    (∀ s, (hypertext text fuel).wp s (fun _ ts _ => Derives .hyper (types ts))
      (fun _ _ _ => True) fun _ => True) ∧
    ∀ s breakers, (hypertextLoop text breakers fuel).wp s
      (fun ecode ts _ => LoopShape ecode (types ts)) (fun _ _ _ => True) fun _ => True := by
  induction fuel with
  | zero => exact ⟨fun s => trivial, fun s breakers => trivial⟩
  | succ fuel ih =>
    obtain ⟨ihSection, ihLoop⟩ := ih
    constructor
    · intro s
      simp only [hypertext, Gen.wp_protect, Gen.wp_bind, Gen.wp_get, Gen.wp_emit, Gen.wp_modify]
      refine (ihLoop _ _).imp ?_ ?_ fun _ _ => trivial
      · intro ecode ts s' h
        refine (closing_shape (isOpener_opener (openerChar text s.i)) h).imp ?_
          (fun _ _ _ _ => trivial) fun _ _ => trivial
        intro _ us _ hus
        simpa using hus
      · rintro ⟨e, _ | code⟩ ts s' -
        · trivial
        · exact wp_lexError fun _ _ => trivial
    · intro s breakers
      simp only [hypertextLoop, Gen.wp_bind, Gen.wp_get, Gen.wp_ite]
      refine ⟨fun hi => ?_, fun hi => ⟨[], [], .itemsNil, .none, rfl⟩⟩
      cases breakOnAny text breakers s.i text.length with
      | none => trivial
      | some q =>
        obtain ⟨b, e, j, c⟩ := q
        -- what comes after the text is a loop shape, and the text is one more item
        have htext : ∀ {ecode ts}, LoopShape ecode ts → LoopShape ecode
            (types (if decide (b < e) then [s.token .text b e] else []) ++ ts) :=
          fun h => h.items fun hus => items_optText rfl hus
        simp only [Gen.wp_bind, Gen.wp_modify, Gen.wp_emit, Gen.wp_ite, Gen.wp_raise,
          Gen.wp_mapError, Gen.wp_pure, wp_emitIf, List.nil_append, types_append]
        refine ⟨fun _ => ⟨fun _ => ⟨fun _ => ?_, fun _ => ?_⟩, fun _ => ⟨fun _ => trivial,
          fun _ => ⟨fun _ => ?_, fun _ => ⟨fun _ => ?_, fun _ => trivial⟩⟩⟩⟩, fun _ => ?_⟩
        · -- the divider, with text after it
          refine hypertextTarget_shape.imp ?_ (fun _ _ _ _ => trivial) fun _ _ => trivial
          rintro ecode ts _ ⟨ds, hds, hts⟩
          refine htext ⟨[], .hypertextDivider :: ds, .itemsNil, ?_, by simp [hts]⟩
          rcases hds with rfl | rfl
          · exact .divider
          · exact .text
        · -- the divider, at the end of the text: the loop is left at its test
          refine (hypertextLoop_of_ge (by simp only [LexState.moveTo_i]; omega)).imp ?_
            (fun _ _ _ _ => trivial) fun _ _ => trivial
          rintro ecode _ _ ⟨hecode, rfl⟩
          exact htext ⟨[], [.hypertextDivider], .itemsNil, .divider, by simp [hecode]⟩
        · -- a nested section
          refine (ihSection _).imp ?_ (fun _ _ _ _ => trivial) fun _ _ => trivial
          intro _ hs s' hhyper
          refine (ihLoop s' breakers).imp ?_ (fun _ _ _ _ => trivial) fun _ _ => trivial
          intro ecode us _ h
          exact htext (h.items fun hus => .itemsHyper hhyper hus)
        · exact htext ⟨[], [], .itemsNil, .none, rfl⟩
        · refine (ihLoop _ breakers).imp ?_ (fun _ _ _ _ => trivial) fun _ _ => trivial
          intro ecode us _ h
          exact htext h

/-! ### Paragraphs, terms and lines -/

/-- The cursor is at the end of a line: at a line feed or at the end of the text. -/
def LineOver (text : List Char) (i : ℕ) : Prop := text.length ≤ i ∨ charAt text i = '\n'

theorem paragraph_shape (fuel : ℕ) : ∀ s, (paragraph text fuel).wp s
    (fun _ ts s' => Derives .items (types ts) ∧ LineOver text s'.i) (fun _ _ _ => True)
    fun _ => True := by
  induction fuel with
  | zero => exact fun s => trivial
  | succ fuel ih =>
    intro s
    simp only [paragraph, Gen.wp_bind, Gen.wp_get]
    cases hq : breakOnAny text ['[', '\n'] s.i text.length with
    | none => trivial
    | some q =>
      obtain ⟨b, e, j, c⟩ := q
      obtain ⟨-, hc⟩ := stop_of_breakOnAny hq
      simp only [Gen.wp_bind, Gen.wp_modify, Gen.wp_get, Gen.wp_ite, Gen.wp_pure, wp_emitIf,
        List.nil_append, types_append, LexState.moveTo_i]
      refine ⟨fun h => ⟨items_optText rfl .itemsNil, ?_⟩, fun _ => ?_⟩
      · rcases h with hj | rfl
        · exact .inl hj
        · split_ifs at hc
          exact .inr (Option.some.inj hc).symm
      refine ((hypertext_shape fuel).1 _).imp ?_ (fun _ _ _ _ => trivial) fun _ _ => trivial
      intro _ hs s' hhyper
      refine ⟨fun hi => ⟨items_optText rfl (.itemsHyper hhyper .itemsNil), .inl hi⟩, fun _ => ?_⟩
      refine (ih s').imp ?_ (fun _ _ _ _ => trivial) fun _ _ => trivial
      intro _ us _ hus
      exact ⟨items_optText rfl (.itemsHyper hhyper hus.1), hus.2⟩

theorem defn_shape : (defn text).wp s
    (fun _ ts s' => types ts = [.text] ∧ LineOver text s'.i) (fun _ _ _ => True)
    fun _ => True := by
  simp only [defn, Gen.wp_bind, Gen.wp_get]
  cases hq : breakOnAny text ['\n'] s.i text.length with
  | none => trivial
  | some q =>
    obtain ⟨b, e, j, c⟩ := q
    refine ⟨rfl, ?_⟩
    rcases Nat.lt_or_ge j text.length with hj | hj
    · exact .inr (List.mem_singleton.mp ((stop_of_breakOnAny hq).1 hj))
    · exact .inl hj

/-- A term is left in mid-line only right after its name, at a semicolon. -/
theorem term_shape : (term text).wp s
    (fun _ ts s' => TermRest (types ts) ∧ (LineOver text s'.i ∨ types ts = [.name]))
    (fun _ _ _ => True) fun _ => True := by
  simp only [term, name, Gen.wp_bind, Gen.wp_get]
  cases breakOnAny text [':', ';', '\n'] s.i text.length with
  | none => trivial
  | some q =>
    obtain ⟨b, e, j, c⟩ := q
    simp only [Gen.wp_bind, Gen.wp_modify, Gen.wp_emit, Gen.wp_ite, Gen.wp_pure,
      LexState.moveTo_i, List.nil_append]
    refine ⟨fun _ => ⟨fun _ => ?_, fun h => ⟨.pivot, .inl ?_⟩⟩, fun _ => ⟨.name, .inr rfl⟩⟩
    · refine defn_shape.imp ?_ (fun _ _ _ _ => trivial) fun _ _ => trivial
      rintro _ ts s' ⟨hts, hover⟩
      refine ⟨?_, .inl hover⟩
      simp only [types_append, types_cons, types_nil, hts, token_ttype]
      exact .defn
    · rcases Nat.lt_or_ge (skipWhitespace text (j + 1) text.length) text.length with hlt | hge
      · exact .inr (by_contra fun hne => h ⟨hlt, hne⟩)
      · exact .inl hge

theorem lineBody_shape {fuel : ℕ} : (lineBody text fuel).wp s
    (fun _ ts s' => Derives .body (types ts) ∧
      (LineOver text s'.i ∨ types ts = [.beginTerm, .name]))
    (fun _ _ _ => True) fun _ => True := by
  simp only [lineBody, Gen.wp_bind, Gen.wp_get, Gen.wp_ite, Gen.wp_emit, Gen.wp_modify,
    Gen.wp_pure, types_append, LexState.moveTo_i]
  refine ⟨fun _ => ⟨fun hi => ⟨.term .none, .inl (.inl hi)⟩, fun _ => ?_⟩, fun _ => ?_⟩
  · refine term_shape.imp ?_ (fun _ _ _ _ => trivial) fun _ _ => trivial
    rintro _ ts s' ⟨hterm, hover⟩
    exact ⟨.term hterm, hover.imp_right fun h => by simp [h]⟩
  · exact (paragraph_shape fuel s).imp (fun _ ts _ h => ⟨.para h.1, .inl h.2⟩)
      (fun _ _ _ _ => trivial) fun _ _ => trivial

/-- The indentation tokens of a line are all of one kind. -/
theorem indentation_shape {indents : List Token}
    (h : types indents = List.replicate indents.length .indent) :
    (indentation indents).wp s (fun _ ts _ => Indentation (types ts)) (fun _ _ _ => True)
      fun _ => True := by
  simp only [indentation, Gen.wp_bind, Gen.wp_get, Gen.wp_emitAll, Gen.wp_modify, types_append,
    types_nil, List.nil_append, List.append_nil]
  rcases Nat.le_total s.indent indents.length with hle | hle
  · rw [Nat.sub_eq_zero_of_le hle, List.replicate_zero, types_nil, List.nil_append]
    have htake : types (indents.take (indents.length - s.indent)) =
        List.replicate (indents.length - s.indent) .indent := by
      rw [types, List.map_take, ← types, h, List.take_replicate, Nat.min_eq_left (by omega)]
    rw [htake]
    exact .indents _
  · rw [Nat.sub_eq_zero_of_le hle, List.take_zero, types_nil, List.append_nil]
    have hrep : types (List.replicate (s.indent - indents.length) (s.token .dedent s.i s.i)) =
        List.replicate (s.indent - indents.length) .dedent := by
      rw [types, List.map_replicate, token_ttype]
    rw [hrep]
    exact .dedents _

/-- What the loop of `_line` yields: the indentation, and a body that reaches the end of the
line unless it is an abandoned term. -/
def LineShape (text : List Char) (ts : List TokType) (i : ℕ) : Prop :=
  ∃ is bs, ts = is ++ bs ∧ Indentation is ∧ Derives .optBody bs ∧
    (LineOver text i ∨ bs = [.beginTerm, .name])

theorem lineLoop_shape (fuel : ℕ) : ∀ (s : LexState) (indents : List Token),
    types indents = List.replicate indents.length .indent →
    (lineLoop text indents fuel).wp s (fun _ ts s' => LineShape text (types ts) s'.i)
      (fun _ _ _ => True) fun _ => True := by
  induction fuel with
  | zero => exact fun s indents _ => trivial
  | succ fuel ih =>
    intro s indents hind
    have hblank : ∀ {i}, LineOver text i → LineShape text (types []) i := fun h =>
      ⟨[], [], rfl, .indents 0, .optBodyNone, .inl h⟩
    -- one more indent keeps the collected tokens of one kind
    have hsnoc : ∀ i, types (indents ++ [s.token .indent s.i i]) =
        List.replicate (indents ++ [s.token .indent s.i i]).length .indent := by
      intro i
      rw [types_append, hind, List.length_append, List.length_singleton, List.replicate_succ']
      rfl
    simp only [lineLoop, Gen.wp_bind, Gen.wp_get, Gen.wp_ite, Gen.wp_modify, Gen.wp_pure,
      List.nil_append]
    refine ⟨fun _ => ⟨fun _ => ih _ _ (hsnoc _), fun _ => ?_⟩,
      fun hi => hblank (.inl (by omega))⟩
    rcases fragmentIsNext text fuel s.i text.length [' ', ' ', ' ', ' '] with _ | _ | _
    · trivial
    · simp only [Gen.wp_bind, Gen.wp_modify, Gen.wp_ite, Gen.wp_pure, List.nil_append]
      refine ⟨fun hi => hblank (.inl hi), fun _ => ⟨fun hnl => hblank (.inr hnl), fun _ => ?_⟩⟩
      refine (indentation_shape hind).imp ?_ (fun _ _ _ _ => trivial) fun _ _ => trivial
      intro _ is _ his
      refine lineBody_shape.imp ?_ (fun _ _ _ _ => trivial) fun _ _ => trivial
      rintro _ bs _ ⟨hbs, hover⟩
      exact ⟨types is, types bs, types_append is bs, his, .optBodySome hbs, hover⟩
    · simp only [Gen.wp_bind, Gen.wp_modify, List.nil_append]
      exact ih _ _ (hsnoc _)

/-- The lines of a document. Only the last line, and a line whose term is abandoned, can miss
its `END_LINE`. -/
inductive DocLines : List TokType → Prop where
  | last {is bs : List TokType} : Indentation is → Derives .optBody bs → DocLines (is ++ bs)
  | line {is bs ls : List TokType} : Indentation is → Derives .optBody bs → DocLines ls →
      DocLines (is ++ bs ++ .endLine :: ls)
  | abandoned {is ls : List TokType} : Indentation is → DocLines ls →
      DocLines (is ++ .beginTerm :: .name :: ls)

theorem DocLines.nil : DocLines [] := .last (.indents 0) .optBodyNone

theorem DocLines.derives {ls : List TokType} (h : DocLines ls) : Derives .lines ls := by
  induction h with
  | @last is bs hi hb =>
    have h := Derives.linesCons (.line hi hb .none) .linesNil
    rwa [List.append_nil, List.append_nil] at h
  | @line is bs ls hi hb _ ih =>
    have h := Derives.linesCons (.line hi hb .some) ih
    rwa [List.append_assoc _ [_] ls] at h
  | @abandoned is ls hi _ ih =>
    have h := Derives.linesCons (.line hi (.optBodySome (.term .name)) .none) ih
    rwa [List.append_nil, List.append_assoc] at h

theorem line_shape {fuel : ℕ} : (line text fuel).wp s
    (fun _ ts s' => ∀ ls, DocLines ls → (text.length ≤ s'.i → ls = []) →
      DocLines (types ts ++ ls))
    (fun _ _ _ => True) fun _ => True := by
  simp only [line, Gen.wp_protect, Gen.wp_mapError, Gen.wp_bind, Gen.wp_modify, Gen.wp_get,
    Gen.wp_ite, Gen.wp_emit, Gen.wp_pure, List.nil_append, List.append_nil]
  refine (lineLoop_shape fuel _ [] rfl).imp ?_ (fun _ _ _ _ => trivial) fun _ _ => trivial
  rintro _ ts s' ⟨is, bs, hts, his, hbs, hover⟩
  refine ⟨fun _ ls hls _ => ?_, fun hnot ls hls hend => ?_⟩
  · rw [types_append, hts, List.append_assoc]
    exact .line his hbs hls
  · rw [hts]
    rcases hover with hover | rfl
    · -- no line feed here, so the text is over
      have hge : text.length ≤ s'.i := by
        rcases hover with h | h
        · exact h
        · by_contra hlt
          exact hnot ⟨by omega, h⟩
      rw [hend hge, List.append_nil]
      exact .last his hbs
    · rw [List.append_assoc]
      exact .abandoned his hls

theorem lexLoop_shape (fuel : ℕ) : ∀ s : LexState, (lexLoop text fuel).wp s
    (fun _ ts _ => DocLines (types ts) ∧ (text.length ≤ s.i → types ts = []))
    (fun _ _ _ => True) fun _ => True := by
  induction fuel with
  | zero => exact fun s => trivial
  | succ fuel ih =>
    intro s
    simp only [lexLoop, Gen.wp_bind, Gen.wp_get, Gen.wp_ite, Gen.wp_pure, List.nil_append]
    refine ⟨fun hi => ?_, fun _ => ⟨.nil, fun _ => rfl⟩⟩
    refine line_shape.imp ?_ (fun _ _ _ _ => trivial) fun _ _ => trivial
    intro _ ts s' hline
    refine (ih s').imp ?_ (fun _ _ _ _ => trivial) fun _ _ => trivial
    rintro _ us _ ⟨hus, hnil⟩
    rw [types_append]
    exact ⟨hline _ hus hnil, fun hge => absurd hi (by omega)⟩

end Generators

/-! ### The whole stream -/

/-- The token types of a completed run are those of a document. -/
theorem Lexes.docLines {text : List Char} {ts : List Token} (h : Lexes text ts) :
    ∃ ls, types ts = .beginDoc :: (ls ++ [.endDoc]) ∧ DocLines ls := by
  refine h.of_sat (P := fun ts => ∃ ls, types ts = .beginDoc :: (ls ++ [.endDoc]) ∧
    DocLines ls) fun fuel => ?_
  change (_ : LexM Unit).wp LexState.init _ _ _
  simp only [Gen.wp_bind, Gen.wp_get, Gen.wp_emit, types_append]
  refine (lexLoop_shape fuel _).imp ?_ (fun _ _ _ _ => trivial) fun _ _ => trivial
  intro _ us _ hus
  exact ⟨types us, rfl, hus.1⟩

/-- The token types of a completed run are a phrase of `Doc`. -/
theorem Lexes.derives {text : List Char} {ts : List Token} (h : Lexes text ts) :
    Derives .doc (types ts) := by
  obtain ⟨ls, hts, hls⟩ := h.docLines
  rw [hts]
  exact .doc hls.derives

/-- **Shape of the token stream.** Wherever `lex` completes, its token types are derived by
the grammar, and every section opener is closed by one `END_HYPERTEXT` or one `LEX_ERROR`. -/
theorem lex_shape (text : List Char) (ts : List Token) (h : Lexes text ts) :
    Derives .doc (types ts) ∧ openers (types ts) =
      (types ts).count .endHypertext + (types ts).count .lexError :=
  ⟨h.derives, h.derives.balanced⟩

/-- The shape of a nested section that is never closed. -/
theorem lex_shape_nested : ∃ ts, Lexes ['[', 'a', '[', 'b', ']'] ts ∧ Derives .doc (types ts) ∧
    openers (types ts) = (types ts).count .endHypertext + (types ts).count .lexError := by
  have h : Lexes ['[', 'a', '[', 'b', ']'] (lex ['[', 'a', '[', 'b', ']'] 20).yields :=
    ⟨20, rfl, by decide +kernel⟩
  exact ⟨_, h, lex_shape _ _ h⟩

end Intent.Py
