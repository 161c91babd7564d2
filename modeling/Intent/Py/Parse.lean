import Intent.Py.LexShape

/-!
# The document parser of `intent/lang`

A translation of `parse.py`, with the node classes of `ast.py` and the contract checks of
`dbc.py`. The parser pulls tokens from one shared iterator: a `TokenStream` is what is left of
it, and the constructors of the nodes are generators over that state which yield nothing.

* `syntaxCheckedTokenStream` tests the error of a line for its *truth*. A `Token` has a
  `__len__`, so it is true when its span is not empty, and a span that ends before it begins
  raises a `ValueError`; the lexer only makes `LEX_ERROR` tokens
  with an empty span (`lex_emptyError`), and the stream that comes out is the stream
  that went in without its `LEX_ERROR` tokens (`checkLoop_eq_filter`).
* An exhausted iterator raises `StopIteration` in `next`, but ends a `for` loop.

The runs of the main loop that come to an end are described by the relation `Consumes`, with
one rule for each way to go on (`parseLoop_sound`, `parseLoop_complete`).
-/

namespace Intent.Py

/-! ### The checked stream -/

/-- `ends_line`. -/
def endsLine (t : Token) : Bool := t.ttype = .endLine || t.ttype = .endDoc

/-- `Token.__len__`. -/
def Token.len (t : Token) : ℤ := (t.stop : ℤ) - t.begin

/-- The truth value of a token. `__len__` decides it, and must not be negative. -/
def Token.truth (t : Token) : Except PyError Bool :=
  if t.len < 0 then .error .valueError else .ok (t.len ≠ 0)

/-- What is left of an iterator over tokens: the tokens it will give, and how it ends. -/
structure TokenStream where
  tokens : List Token
  ending : Ending PyError Unit
  deriving DecidableEq

/-- More tokens in front of a stream. -/
def TokenStream.after (ts : List Token) (s : TokenStream) : TokenStream :=
  { s with tokens := ts ++ s.tokens }

/-- What the loop of `syntax_checked_token_stream` yields in front of the end of a line. -/
def checkedLine (pending : List Token) (errorOnLine : Option Token) :
    Except PyError (List Token) :=
  match errorOnLine with
  | none => .ok pending
  | some e => do
    if ← e.truth then
      pure [e]
    else
      pure pending

/-- The loop of `syntax_checked_token_stream` over an iterator that ends with `ending`. -/
def checkLoop (ending : Ending PyError Unit) (pending : List Token)
    (errorOnLine : Option Token) : List Token → TokenStream
  | [] => match ending with
    | .returned _ => ⟨pending, ending⟩
    | _ => ⟨[], ending⟩
  | t :: ts =>
    if endsLine t then
      match checkedLine pending errorOnLine with
      | .ok line => (checkLoop ending [] errorOnLine ts).after (line ++ [t])
      | .error e => ⟨[], .raised e⟩
    else if t.ttype = .lexError then checkLoop ending pending (some t) ts
    else checkLoop ending (pending ++ [t]) errorOnLine ts

/-- `syntax_checked_token_stream`. -/
def syntaxCheckedTokenStream (ts : TokenStream) : TokenStream :=
  checkLoop ts.ending [] none ts.tokens

/-! ### Nodes -/

/-- A part of a paragraph. -/
inductive Part where
  | text (token : Token)
  | anchor (text : Token)
  deriving DecidableEq, Repr

/-- What `parse_text` yields. -/
inductive Node where
  | paragraph (parts : List Part)
  | term (name definition : Token)
  | lexError (token : Token)
  | syntaxError (msg : String)
  deriving DecidableEq, Repr

/-- A computation of the parser over the token stream. -/
abbrev ParseM (α : Type) : Type := Gen TokenStream Node PyError α

/-- One round of `for t in token_stream`: the next token, or `none` to leave the loop. -/
def pull : ParseM (Option Token) := do
  let s ← Gen.get
  match s.tokens with
  | t :: ts => do
    Gen.modify fun s => { s with tokens := ts }
    pure (some t)
  | [] => match s.ending with
    | .returned _ => pure none
    | .raised e => Gen.raise e
    | .hung => Gen.hang

/-- `next(token_stream)`. -/
def next : ParseM Token := do
  match ← pull with
  | some t => pure t
  | none => Gen.raise .stopIteration

/-- `precondition(expr, comment)`. -/
def precondition (expr : Bool) (comment : String) : ParseM Unit :=
  if expr then pure () else Gen.raise (.preconditionViolation comment)

/-- `postcondition(expr, comment)`. -/
def postcondition (expr : Bool) (comment : String) : ParseM Unit :=
  if expr then pure () else Gen.raise (.postconditionViolation comment)

/-- `Text(token)`. -/
def textNode (token : Token) : ParseM Part := do
  precondition (token.ttype = .text) "token type should be TEXT"
  pure (.text token)

/-- `Anchor(token_stream)`. -/
def anchorNode : ParseM Part := do
  let text ← next
  let t ← next
  postcondition (t.ttype = .endHypertext) "should be followed by END_HYPERTEXT"
  pure (.anchor text)

/-- The loop of `Paragraph(token_stream)`; every round takes a token. -/
def paragraphLoop (parts : List Part) : ℕ → ParseM (List Part)
  | 0 => Gen.hang
  | fuel + 1 => do
    match ← pull with
    | none => pure parts
    | some t =>
      if endsLine t then pure parts
      else if t.ttype = .text then do
        let part ← textNode t
        paragraphLoop (parts ++ [part]) fuel
      else if t.ttype = .beginAnchor then do
        let part ← anchorNode
        paragraphLoop (parts ++ [part]) fuel
      -- `raise NotImplemented`, which is not an exception
      else Gen.raise .typeError

/-- `Paragraph(token_stream)`. -/
def paragraphNode : ParseM Node := do
  let s ← Gen.get
  let parts ← paragraphLoop [] (s.tokens.length + 1)
  pure (.paragraph parts)

/-- `Term(token_stream)`. -/
def termNode : ParseM Node := do
  let name ← next
  let t ← next
  if t.ttype = .pivotTerm then do
    let definition ← next
    pure (.term name definition)
  else Gen.raise .assertionError

/-- The loop of `parse_text`; every round takes a token. -/
def parseLoop : ℕ → ParseM Unit
  | 0 => Gen.hang
  | fuel + 1 => do
    match ← pull with
    | none => pure ()
    | some t =>
      if t.ttype = .beginPara then do
        let node ← paragraphNode
        Gen.emit node
        parseLoop fuel
      else if t.ttype = .beginTerm then do
        let node ← termNode
        Gen.emit node
        parseLoop fuel
      else if t.ttype = .lexError then do
        Gen.emit (.lexError t)
        parseLoop fuel
      else if endsLine t then parseLoop fuel
      else Gen.raise .assertionError

/-- The body of `parse_text`, over a checked stream. -/
def parseStream : ParseM Unit :=
  Gen.handle
    (do
      let t ← next
      precondition (t.ttype = .beginDoc) "first token should be BEGIN_DOC"
      let s ← Gen.get
      parseLoop (s.tokens.length + 1))
    fun e =>
      if e = .stopIteration then Gen.emit (.syntaxError "Incomplete data.") else Gen.raise e

/-- `parse_text(text)`, run to its end over a run of `lex`. -/
def parseText (text : List Char) (fuel : ℕ) : Trace TokenStream Node PyError Unit :=
  parseStream (syntaxCheckedTokenStream ⟨(lex text fuel).yields, (lex text fuel).ending⟩)

/-! ### The lexer's errors are never reported -/

/-- Every `LEX_ERROR` token of the list spans nothing. -/
def EmptyError (t : Token) : Prop := t.ttype = .lexError → t.begin = t.stop

section Errors

variable {text : List Char}

private theorem emptyError_token {ls : LexState} {tt : TokType} {b e : ℕ}
    (h : tt ≠ .lexError) : EmptyError (ls.token tt b e) := fun ht => absurd ht h

private theorem yields_emitIf {ε : Type} {c : Bool} {t : Token} (h : EmptyError t) :
    (emitIf c t : Gen LexState Token ε Unit).Yields EmptyError := by
  refine .emitAll fun u hu => ?_
  cases c with
  | false => cases hu
  | true => exact List.mem_singleton.mp hu ▸ h

theorem lexError_emptyError {code : ErrorCode} : (lexError text code).Yields EmptyError := by
  refine .bind .get fun ls => .bind (.emit fun _ => rfl) fun _ => ?_
  cases findLineBreak text ls.i with
  | none => exact .pure
  | some stop => exact yields_emitIf (emptyError_token (by decide))

theorem hypertextTarget_emptyError : (hypertextTarget text).Yields EmptyError := by
  refine .bind .get fun ls => ?_
  split
  · exact .raise
  · exact .bind .modify fun _ => .bind (yields_emitIf (emptyError_token (by decide))) fun _ =>
      .ite (.bind (.emit (emptyError_token (by decide))) fun _ => .pure) .pure

theorem hypertext_emptyError (fuel : ℕ) : (hypertext text fuel).Yields EmptyError ∧
    ∀ breakers, (hypertextLoop text breakers fuel).Yields EmptyError := by
  induction fuel with
  | zero => exact ⟨.hang, fun _ => .hang⟩
  | succ fuel ih =>
    refine ⟨?_, fun breakers => ?_⟩
    · rw [hypertext]
      refine .protect (.bind .get fun ls => .bind (.emit (emptyError_token ?_)) fun _ =>
        .bind .modify fun _ => ih.2 _) fun ecode => ?_
      · unfold opener
        split_ifs <;> decide
      · cases ecode with
        | none => exact .pure
        | some code => exact lexError_emptyError
    · rw [hypertextLoop]
      refine .bind .get fun ls => .ite ?_ .pure
      split
      · exact .raise
      · refine .bind .modify fun _ => .bind (yields_emitIf (emptyError_token (by decide)))
          fun _ => .ite (.ite ?_ (.ite .raise (.ite ?_ (.ite ?_ .raise)))) (ih.2 breakers)
        · exact .bind (.emit (emptyError_token (by decide))) fun _ => .bind .modify fun _ =>
            .ite hypertextTarget_emptyError (ih.2 breakers)
        · exact .bind (.mapError ih.1) fun _ => ih.2 breakers
        · exact .bind (.emit (emptyError_token (by decide))) fun _ => .bind .modify fun _ => .pure

theorem paragraph_emptyError (fuel : ℕ) : (paragraph text fuel).Yields EmptyError := by
  induction fuel with
  | zero => exact .hang
  | succ fuel ih =>
    rw [paragraph]
    refine .bind .get fun ls => ?_
    split
    · exact .raise
    · exact .bind .modify fun _ => .bind (yields_emitIf (emptyError_token (by decide)))
        fun _ => .ite .pure (.bind (hypertext_emptyError fuel).1 fun _ => .bind .get
          fun _ => .ite .pure ih)

theorem term_emptyError : (term text).Yields EmptyError := by
  have hname : (name text).Yields EmptyError := by
    refine .bind .get fun ls => ?_
    split
    · exact .raise
    · exact .bind .modify fun _ => .emit (emptyError_token (by decide))
  have hdefn : (defn text).Yields EmptyError := by
    refine .bind .get fun ls => ?_
    split
    · exact .raise
    · exact .bind .modify fun _ => .emit (emptyError_token (by decide))
  exact .bind hname fun _ => .bind .get fun _ => .ite
    (.bind (.emit (emptyError_token (by decide))) fun _ => .bind .modify fun _ =>
      .ite hdefn .pure) .pure

theorem lineBody_emptyError {fuel : ℕ} : (lineBody text fuel).Yields EmptyError :=
  .bind .get fun _ => .ite
    (.bind (.emit (emptyError_token (by decide))) fun _ => .bind .modify fun _ =>
      .ite .pure term_emptyError)
    (.bind (.emit (emptyError_token (by decide))) fun _ => paragraph_emptyError fuel)

theorem indentation_emptyError {indents : List Token} (h : ∀ t ∈ indents, EmptyError t) :
    (indentation indents).Yields EmptyError := by
  refine .bind .get fun ls => .bind (.emitAll fun t ht => ?_) fun _ =>
    .bind (.emitAll fun t ht => h t (List.mem_of_mem_take ht)) fun _ => .modify
  rw [List.eq_of_mem_replicate ht]
  exact emptyError_token (by decide)

theorem lineLoop_emptyError (fuel : ℕ) : ∀ indents : List Token,
    (∀ t ∈ indents, EmptyError t) → (lineLoop text indents fuel).Yields EmptyError := by
  induction fuel with
  | zero => exact fun _ _ => .hang
  | succ fuel ih =>
    intro indents h
    have hsnoc : ∀ (ls : LexState) (b e : ℕ), ∀ t ∈ indents ++ [ls.token .indent b e],
        EmptyError t := by
      intro ls b e t ht
      rcases List.mem_append.mp ht with ht | ht
      · exact h t ht
      · exact List.mem_singleton.mp ht ▸ emptyError_token (by decide)
    rw [lineLoop]
    refine .bind .get fun ls => .ite (.ite (.bind .modify fun _ => ih _ (hsnoc _ _ _)) ?_) .pure
    split
    · exact .hang
    · exact .bind .modify fun _ => ih _ (hsnoc _ _ _)
    · exact .bind .modify fun _ => .ite .pure (.ite .pure
        (.bind (indentation_emptyError h) fun _ => lineBody_emptyError))

theorem lexLoop_emptyError (fuel : ℕ) : (lexLoop text fuel).Yields EmptyError := by
  have hline : ∀ fuel, (line text fuel).Yields EmptyError := fun fuel =>
    .protect (.mapError (.bind .modify fun _ => .bind
      (lineLoop_emptyError fuel [] fun t ht => by cases ht) fun _ => .bind .get fun _ =>
        .ite (.bind (.emit (emptyError_token (by decide))) fun _ => .modify) .pure))
      fun _ => .modify
  induction fuel with
  | zero => exact .hang
  | succ fuel ih => exact .bind .get fun _ => .ite (.bind (hline fuel) fun _ => ih) .pure

end Errors

/-- **The lexer's error tokens are false.** However `lex` ends, its `LEX_ERROR` tokens have
empty spans. -/
theorem lex_emptyError (text : List Char) (fuel : ℕ) :
    ∀ t ∈ (lex text fuel).yields, EmptyError t :=
  Gen.Yields.bind .get (fun _ => .bind (.emit (emptyError_token (by decide))) fun _ =>
    .bind (lexLoop_emptyError fuel) fun _ => .bind .get fun _ =>
      .emit (emptyError_token (by decide))) LexState.init

private theorem truth_of_emptyError {t : Token} (h : EmptyError t) (ht : t.ttype = .lexError) :
    t.truth = .ok false := by
  simp [Token.truth, Token.len, h ht]

/-- **The checked stream** of a completed run is the run without its `LEX_ERROR` tokens. -/
theorem checkLoop_eq_filter {ts pending : List Token} {errorOnLine : Option Token}
    (h : ∀ t ∈ ts, EmptyError t) (herr : ∀ e ∈ errorOnLine, e.truth = .ok false) :
    checkLoop (.returned ()) pending errorOnLine ts =
      ⟨pending ++ ts.filter (fun t => t.ttype ≠ .lexError), .returned ()⟩ := by
  induction ts generalizing pending errorOnLine with
  | nil => simp [checkLoop]
  | cons t ts ih =>
    have hts : ∀ t ∈ ts, EmptyError t := fun u hu => h u (List.mem_cons_of_mem t hu)
    rw [checkLoop]
    split_ifs with hend hlex
    · have hline : checkedLine pending errorOnLine = .ok pending := by
        cases errorOnLine with
        | none => rfl
        | some e =>
          rw [checkedLine, herr e rfl]
          rfl
      have hne : t.ttype ≠ .lexError := fun heq => by simp [endsLine, heq] at hend
      rw [hline, ih hts herr, List.filter_cons_of_pos (by simpa using hne)]
      simp [TokenStream.after]
    · rw [ih hts, List.filter_cons_of_neg (by simpa using hlex)]
      intro e he
      obtain rfl := Option.mem_some_iff.mp he
      exact truth_of_emptyError (h t List.mem_cons_self) hlex
    · rw [ih hts herr, List.filter_cons_of_pos (by simpa using hlex), List.append_assoc]
      rfl

/-! ### Completed runs of the parser -/

section Runs

variable {t d e b : Token} {us items rest : List Token} {ending : Ending PyError Unit}

/-- The tokens of a paragraph and the parts made of them. An anchor takes whatever token comes
after its opener as its text. -/
inductive PartsOf : List Token → List Part → Prop where
  | nil : PartsOf [] []
  | text {t : Token} {ts : List Token} {ps : List Part} : t.ttype = .text → PartsOf ts ps →
      PartsOf (t :: ts) (.text t :: ps)
  | anchor {b x e : Token} {ts : List Token} {ps : List Part} : b.ttype = .beginAnchor →
      e.ttype = .endHypertext → PartsOf ts ps → PartsOf (b :: x :: e :: ts) (.anchor x :: ps)

/-- **Completed runs** of the main loop: the tokens it consumes and the nodes it yields. -/
inductive Consumes : List Token → List Node → Prop where
  | done : Consumes [] []
  | lineEnd {e : Token} {us : List Token} {ns : List Node} : endsLine e = true →
      Consumes us ns → Consumes (e :: us) ns
  | paragraph {b e : Token} {items us : List Token} {ps : List Part} {ns : List Node} :
      b.ttype = .beginPara → PartsOf items ps → endsLine e = true → Consumes us ns →
      Consumes (b :: (items ++ e :: us)) (.paragraph ps :: ns)
  | lastParagraph {b : Token} {items : List Token} {ps : List Part} :
      b.ttype = .beginPara → PartsOf items ps → Consumes (b :: items) [.paragraph ps]
  | term {b n p d : Token} {us : List Token} {ns : List Node} : b.ttype = .beginTerm →
      p.ttype = .pivotTerm → Consumes us ns → Consumes (b :: n :: p :: d :: us) (.term n d :: ns)
  | lexError {t : Token} {us : List Token} {ns : List Node} : t.ttype = .lexError →
      Consumes us ns → Consumes (t :: us) (.lexError t :: ns)

@[simp]
theorem wp_pull_cons {R : Option Token → List Node → TokenStream → Prop}
    {E : PyError → List Node → TokenStream → Prop} {H : List Node → Prop} :
    pull.wp ⟨t :: us, ending⟩ R E H ↔ R (some t) [] ⟨us, ending⟩ := Iff.rfl

@[simp]
theorem wp_pull_nil {R : Option Token → List Node → TokenStream → Prop}
    {E : PyError → List Node → TokenStream → Prop} {H : List Node → Prop} :
    pull.wp ⟨[], .returned ()⟩ R E H ↔ R none [] ⟨[], .returned ()⟩ := Iff.rfl

@[simp]
theorem wp_next_cons {R : Token → List Node → TokenStream → Prop}
    {E : PyError → List Node → TokenStream → Prop} {H : List Node → Prop} :
    next.wp ⟨t :: us, ending⟩ R E H ↔ R t [] ⟨us, ending⟩ := Iff.rfl

@[simp]
theorem wp_next_nil {R : Token → List Node → TokenStream → Prop}
    {E : PyError → List Node → TokenStream → Prop} {H : List Node → Prop} :
    next.wp ⟨[], .returned ()⟩ R E H ↔ E .stopIteration [] ⟨[], .returned ()⟩ := Iff.rfl

/-- What a completed `Paragraph` loop has consumed: its items, and the token that ends the
line unless the stream is over. -/
def TakesItems (us items rest : List Token) : Prop :=
  (∃ e, endsLine e = true ∧ us = items ++ e :: rest) ∨ (us = items ∧ rest = [])

private theorem TakesItems.cons (h : TakesItems us items rest) (front : List Token) :
    TakesItems (front ++ us) (front ++ items) rest := by
  rcases h with ⟨e, he, rfl⟩ | ⟨rfl, rfl⟩
  · exact .inl ⟨e, he, by rw [List.append_assoc]⟩
  · exact .inr ⟨rfl, rfl⟩

theorem anchorNode_sound : anchorNode.wp ⟨us, .returned ()⟩
    (fun part ns s => ns = [] ∧ ∃ x e rest, part = .anchor x ∧ us = x :: e :: rest ∧
      e.ttype = .endHypertext ∧ s = ⟨rest, .returned ()⟩)
    (fun _ _ _ => True) fun _ => True := by
  rcases us with _ | ⟨x, _ | ⟨e, rest⟩⟩
  · exact trivial
  · exact trivial
  · simp only [anchorNode, postcondition, Gen.wp_bind, wp_next_cons, Gen.wp_ite, Gen.wp_pure,
      Gen.wp_raise, decide_eq_true_eq]
    exact ⟨fun he => ⟨rfl, x, e, rest, rfl, rfl, he, rfl⟩, fun _ => trivial⟩

theorem paragraphLoop_sound (fuel : ℕ) : ∀ (us : List Token) (parts : List Part),
    (paragraphLoop parts fuel).wp ⟨us, .returned ()⟩
      (fun parts' ns s => ns = [] ∧ ∃ items ps rest, parts' = parts ++ ps ∧ PartsOf items ps ∧
        TakesItems us items rest ∧ s = ⟨rest, .returned ()⟩)
      (fun _ _ _ => True) fun _ => True := by
  induction fuel with
  | zero => exact fun _ _ => trivial
  | succ fuel ih =>
    intro us parts
    rcases us with _ | ⟨t, us⟩
    · exact ⟨rfl, [], [], [], (List.append_nil _).symm, .nil, .inr ⟨rfl, rfl⟩, rfl⟩
    simp only [paragraphLoop, Gen.wp_bind, wp_pull_cons, Gen.wp_ite, Gen.wp_pure, Gen.wp_raise,
      List.nil_append, implies_true, and_true]
    refine ⟨fun hend => ⟨trivial, [], [], us, (List.append_nil _).symm, .nil, .inl ⟨t, hend, rfl⟩,
      rfl⟩, fun _ => ⟨fun htext => ?_, fun _ hanchor => ?_⟩⟩
    · simp only [textNode, precondition, htext, decide_true, if_true, Gen.wp_bind, Gen.wp_pure,
        List.nil_append]
      refine (ih us (parts ++ [.text t])).imp ?_ (fun _ _ _ _ => trivial) fun _ _ => trivial
      rintro parts' ns s ⟨rfl, items, ps, rest, rfl, hps, htakes, rfl⟩
      exact ⟨rfl, t :: items, .text t :: ps, rest, by simp, .text htext hps, htakes.cons [t], rfl⟩
    · refine anchorNode_sound.imp ?_ (fun _ _ _ _ => trivial) fun _ _ => trivial
      rintro part _ _ ⟨rfl, x, e, us, rfl, rfl, he, rfl⟩
      refine (ih us (parts ++ [.anchor x])).imp ?_ (fun _ _ _ _ => trivial) fun _ _ => trivial
      rintro parts' ns s ⟨rfl, items, ps, rest, rfl, hps, htakes, rfl⟩
      exact ⟨rfl, t :: x :: e :: items, .anchor x :: ps, rest, by simp,
        .anchor hanchor he hps, htakes.cons [t, x, e], rfl⟩

/-- **Soundness of `Consumes`**: a run of the main loop that returns is in the relation. -/
theorem parseLoop_sound (fuel : ℕ) : ∀ us : List Token,
    (parseLoop fuel).wp ⟨us, .returned ()⟩ (fun _ ns _ => Consumes us ns)
      (fun _ _ _ => True) fun _ => True := by
  induction fuel with
  | zero => exact fun _ => trivial
  | succ fuel ih =>
    intro us
    rcases us with _ | ⟨t, us⟩
    · exact .done
    simp only [parseLoop, Gen.wp_bind, wp_pull_cons, Gen.wp_ite, Gen.wp_emit, Gen.wp_raise,
      List.nil_append, implies_true, and_true]
    refine ⟨fun hpara => ?_, fun _ => ⟨fun hterm => ?_, fun _ => ⟨fun herr => ?_,
      fun _ hend => ?_⟩⟩⟩
    · simp only [paragraphNode, Gen.wp_bind, Gen.wp_get, Gen.wp_pure, List.nil_append]
      refine (paragraphLoop_sound _ us []).imp ?_ (fun _ _ _ _ => trivial) fun _ _ => trivial
      rintro parts _ _ ⟨rfl, items, ps, rest, rfl, hps, htakes, rfl⟩
      refine (ih rest).imp (fun _ ns _ hns => ?_) (fun _ _ _ _ => trivial) fun _ _ => trivial
      rcases htakes with ⟨e, he, rfl⟩ | ⟨rfl, rfl⟩
      · exact .paragraph hpara hps he hns
      · cases hns
        exact .lastParagraph hpara hps
    · rcases us with _ | ⟨n, _ | ⟨p, us⟩⟩
      · trivial
      · trivial
      · simp only [termNode, Gen.wp_bind, wp_next_cons, Gen.wp_ite, Gen.wp_raise, Gen.wp_pure,
          implies_true, and_true]
        intro hpivot
        rcases us with _ | ⟨d, us⟩
        · trivial
        · exact (ih us).imp (fun _ ns _ hns => .term hterm hpivot hns) (fun _ _ _ _ => trivial)
            fun _ _ => trivial
    · exact (ih us).imp (fun _ ns _ hns => .lexError herr hns) (fun _ _ _ _ => trivial)
        fun _ _ => trivial
    · exact (ih us).imp (fun _ ns _ hns => .lineEnd hend hns) (fun _ _ _ _ => trivial)
        fun _ _ => trivial

theorem not_endsLine {tt : TokType} (h : t.ttype = tt)
    (htt : tt ≠ .endLine ∧ tt ≠ .endDoc) : ¬ endsLine t = true := by
  simp [endsLine, h, htt]

theorem paragraphLoop_complete {ps : List Part} (h : PartsOf items ps) (hrest :
    TakesItems us items rest) : ∀ (parts : List Part) (fuel : ℕ), items.length < fuel →
      (paragraphLoop parts fuel).wp ⟨us, .returned ()⟩
        (fun parts' ns s => ns = [] ∧ parts' = parts ++ ps ∧ s = ⟨rest, .returned ()⟩)
        (fun _ _ _ => False) fun _ => False := by
  intro parts fuel
  induction h generalizing us parts fuel with
  | nil =>
    intro hfuel
    obtain ⟨fuel, rfl⟩ := Nat.exists_eq_add_of_lt hfuel
    rcases hrest with ⟨e, he, rfl⟩ | ⟨rfl, rfl⟩
    · simp only [List.length_nil, Nat.zero_add, List.nil_append, paragraphLoop, Gen.wp_bind,
        wp_pull_cons, he, if_true, Gen.wp_pure, List.append_nil, and_self]
    · exact ⟨rfl, (List.append_nil _).symm, rfl⟩
  | @text t ts ps ht _ ih =>
    intro hfuel
    obtain ⟨fuel, rfl⟩ := Nat.exists_eq_add_of_lt hfuel
    obtain ⟨us, rfl, htail⟩ : ∃ us', us = t :: us' ∧ TakesItems us' ts rest := by
      rcases hrest with ⟨e, he, rfl⟩ | ⟨rfl, rfl⟩
      · exact ⟨_, rfl, .inl ⟨e, he, rfl⟩⟩
      · exact ⟨_, rfl, .inr ⟨rfl, rfl⟩⟩
    have hnot := not_endsLine ht (by decide)
    simp only [paragraphLoop, Gen.wp_bind, wp_pull_cons, if_neg hnot, textNode,
      precondition, ht, decide_true, if_true, Gen.wp_pure, List.nil_append]
    have hlen : ts.length < (t :: ts).length + fuel := by
      simp only [List.length_cons]
      omega
    refine (ih htail (parts ++ [.text t]) _ hlen).imp ?_
      (fun _ _ _ h => h) fun _ h => h
    rintro parts' ns s ⟨rfl, rfl, rfl⟩
    exact ⟨rfl, by simp, rfl⟩
  | @anchor b x e ts ps hb he _ ih =>
    intro hfuel
    obtain ⟨fuel, rfl⟩ := Nat.exists_eq_add_of_lt hfuel
    obtain ⟨us, rfl, htail⟩ : ∃ us', us = b :: x :: e :: us' ∧ TakesItems us' ts rest := by
      rcases hrest with ⟨e, he, rfl⟩ | ⟨rfl, rfl⟩
      · exact ⟨_, rfl, .inl ⟨e, he, rfl⟩⟩
      · exact ⟨_, rfl, .inr ⟨rfl, rfl⟩⟩
    have hnot := not_endsLine hb (by decide)
    have htext : b.ttype ≠ .text := by rw [hb]; decide
    simp only [paragraphLoop, Gen.wp_bind, wp_pull_cons, if_neg hnot, if_neg htext, if_pos hb,
      anchorNode, postcondition, wp_next_cons, he, decide_true, if_true, Gen.wp_pure,
      List.nil_append]
    have hlen : ts.length < (b :: x :: e :: ts).length + fuel := by
      simp only [List.length_cons]
      omega
    refine (ih htail (parts ++ [.anchor x]) _ hlen).imp ?_
      (fun _ _ _ h => h) fun _ h => h
    rintro parts' ns s ⟨rfl, rfl, rfl⟩
    exact ⟨rfl, by simp, rfl⟩

/-- A paragraph of the main loop, up to what is left for the next round. -/
private theorem parseLoop_paragraph {ps : List Part} {ns : List Node} {fuel : ℕ}
    (hb : b.ttype = .beginPara) (hps : PartsOf items ps) (hrest : TakesItems us items rest)
    (h : (parseLoop fuel).wp ⟨rest, .returned ()⟩ (fun _ ns' _ => ns' = ns)
      (fun _ _ _ => False) fun _ => False) :
    (parseLoop (fuel + 1)).wp ⟨b :: us, .returned ()⟩
      (fun _ ns' _ => ns' = .paragraph ps :: ns) (fun _ _ _ => False) fun _ => False := by
  have hlen : items.length < us.length + 1 := by
    rcases hrest with ⟨e, -, rfl⟩ | ⟨rfl, -⟩
    · simp only [List.length_append, List.length_cons]
      omega
    · exact Nat.lt_succ_self _
  simp only [parseLoop, Gen.wp_bind, wp_pull_cons, if_pos hb, paragraphNode, Gen.wp_get,
    Gen.wp_pure, Gen.wp_emit, List.nil_append]
  refine (paragraphLoop_complete hps hrest [] _ hlen).imp ?_ (fun _ _ _ h => h) fun _ h => h
  rintro parts _ _ ⟨rfl, rfl, rfl⟩
  refine h.imp ?_ (fun _ _ _ h => h) fun _ h => h
  rintro _ _ _ rfl
  rfl

private theorem parseLoop_nil {fuel : ℕ} (h : 0 < fuel) :
    (parseLoop fuel).wp ⟨[], .returned ()⟩ (fun _ ns' _ => ns' = []) (fun _ _ _ => False)
      fun _ => False := by
  obtain ⟨fuel, rfl⟩ := Nat.exists_eq_add_of_lt h
  exact rfl

/-- **Completeness of `Consumes`**: every run in the relation is taken, given a round for each
token and one more. -/
theorem parseLoop_complete {ns : List Node} (h : Consumes us ns) : ∀ fuel, us.length < fuel →
    (parseLoop fuel).wp ⟨us, .returned ()⟩ (fun _ ns' _ => ns' = ns) (fun _ _ _ => False)
      fun _ => False := by
  induction h with
  | done => exact fun fuel hfuel => parseLoop_nil hfuel
  | @lineEnd e us ns he _ ih =>
    intro fuel hfuel
    obtain ⟨fuel, rfl⟩ := Nat.exists_eq_add_of_lt hfuel
    have hne : e.ttype ≠ .beginPara ∧ e.ttype ≠ .beginTerm ∧ e.ttype ≠ .lexError := by
      refine ⟨?_, ?_, ?_⟩ <;> exact fun heq => not_endsLine heq (by decide) he
    simp only [parseLoop, Gen.wp_bind, wp_pull_cons, if_neg hne.1, if_neg hne.2.1,
      if_neg hne.2.2, if_pos he, List.nil_append]
    exact ih _ (by simp only [List.length_cons]; omega)
  | @paragraph b e items us ps ns hb hps he _ ih =>
    intro fuel hfuel
    obtain ⟨fuel, rfl⟩ := Nat.exists_eq_add_of_lt hfuel
    refine parseLoop_paragraph hb hps (.inl ⟨e, he, rfl⟩) (ih _ ?_)
    simp only [List.length_cons, List.length_append]
    omega
  | @lastParagraph b items ps hb hps =>
    intro fuel hfuel
    obtain ⟨fuel, rfl⟩ := Nat.exists_eq_add_of_lt hfuel
    refine parseLoop_paragraph hb hps (.inr ⟨rfl, rfl⟩) (parseLoop_nil ?_)
    simp only [List.length_cons]
    omega
  | @term b n p d us ns hb hp _ ih =>
    intro fuel hfuel
    obtain ⟨fuel, rfl⟩ := Nat.exists_eq_add_of_lt hfuel
    have hne : b.ttype ≠ .beginPara := by rw [hb]; decide
    simp only [parseLoop, Gen.wp_bind, wp_pull_cons, if_neg hne, if_pos hb, termNode,
      wp_next_cons, if_pos hp, Gen.wp_pure, Gen.wp_emit, List.nil_append]
    refine (ih _ (by simp only [List.length_cons]; omega)).imp ?_ (fun _ _ _ h => h) fun _ h => h
    rintro _ _ _ rfl
    rfl
  | @lexError t us ns ht _ ih =>
    intro fuel hfuel
    obtain ⟨fuel, rfl⟩ := Nat.exists_eq_add_of_lt hfuel
    have hne : t.ttype ≠ .beginPara ∧ t.ttype ≠ .beginTerm := by rw [ht]; decide
    simp only [parseLoop, Gen.wp_bind, wp_pull_cons, if_neg hne.1, if_neg hne.2, if_pos ht,
      Gen.wp_emit, List.nil_append]
    refine (ih _ (by simp only [List.length_cons]; omega)).imp ?_ (fun _ _ _ h => h) fun _ h => h
    rintro _ _ _ rfl
    rfl

/-- A completed run of the parser consumed its stream, or met its end in the middle of a
node. -/
theorem parseStream_sound : parseStream.wp ⟨d :: us, .returned ()⟩
    (fun _ ns _ => Consumes us ns ∨ .syntaxError "Incomplete data." ∈ ns) (fun _ _ _ => True)
    fun _ => True := by
  simp only [parseStream, precondition, Gen.wp_handle, Gen.wp_bind, wp_next_cons, Gen.wp_ite,
    Gen.wp_pure, Gen.wp_raise, Gen.wp_get, Gen.wp_emit, List.nil_append, implies_true, and_true]
  refine ⟨fun _ => (parseLoop_sound _ us).imp (fun _ ns _ hns => .inl hns) ?_
    fun _ _ => trivial, fun _ => by simp⟩
  exact fun e ns _ _ _ => .inr (List.mem_append_right ns List.mem_cons_self)

theorem parseStream_complete {ns : List Node} (hd : d.ttype = .beginDoc) (h : Consumes us ns) :
    parseStream.wp ⟨d :: us, .returned ()⟩ (fun _ ns' _ => ns' = ns) (fun _ _ _ => False)
      fun _ => False := by
  simp only [parseStream, precondition, Gen.wp_handle, Gen.wp_bind, wp_next_cons, hd,
    decide_true, if_true, Gen.wp_pure, Gen.wp_get, List.nil_append]
  exact (parseLoop_complete h _ (Nat.lt_succ_self _)).imp (fun _ _ _ h => h)
    (fun _ _ _ h => h.elim) fun _ h => h

end Runs

end Intent.Py
