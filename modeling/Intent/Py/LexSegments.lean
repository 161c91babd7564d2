import Intent.Py.LexMode
import Mathlib.Data.List.Chain

/-!
# Stretches of a line and their tokens

While `_line` works on one line, the cursor goes from one position to the next and tokens are
yielded on the way. What these tokens have to do with the text between two positions is said
twice here.

* `Placed text s i ts j`: the tokens lie in the stretch from `i` to `j`, they carry the line
  number and the line start of the state `s`, and a line feed in the stretch is one that a
  section has taken in.
* `Segment text s i ts j` adds what they say of the brackets: a token that misrepresents them
  is yielded exactly if the reading meets one of two situations in the stretch (`Misread`), and
  lexing goes on right after each closing token.

Both compose (`Placed.append`, `Segment.append`), and a hypertext section makes one
(`hypertext_segment`), however it ends.
-/

namespace Intent.Py

variable {text : List Char} {i j k m d : ℕ} {ts us : List Token} {t u : Token} {s s' : LexState}

/-! ### Places -/

/-- The types of the tokens around all lines. -/
def TokType.isDoc : TokType → Bool
  | .beginDoc | .endDoc => true
  | _ => false

/-- The token was made on the line of the state. -/
structure LexState.Stamps (s : LexState) (t : Token) : Prop where
  line : t.lineNum = s.lineNum
  col : t.col = 1 + ((t.begin : ℤ) - s.lineStart)
  type : t.ttype.isDoc = false

/-- Two states of one line. -/
def SameLine (s s' : LexState) : Prop := s'.lineNum = s.lineNum ∧ s'.lineStart = s.lineStart

theorem SameLine.refl (s : LexState) : SameLine s s := ⟨rfl, rfl⟩

theorem SameLine.moveTo (s : LexState) (i : ℕ) : SameLine s (s.moveTo i) := ⟨rfl, rfl⟩

theorem SameLine.trans {s'' : LexState} (h : SameLine s s') (h' : SameLine s' s'') :
    SameLine s s'' :=
  ⟨h'.1.trans h.1, h'.2.trans h.2⟩

theorem LexState.stamps_token (h : SameLine s s') {tt : TokType} (htt : tt.isDoc = false)
    (b e : ℕ) : s.Stamps (s'.token tt b e) where
  line := h.1
  col := by
    rw [← h.2]
    rfl
  type := htt

theorem SameLine.stamps (h : SameLine s s') (ht : s'.Stamps t) : s.Stamps t :=
  ⟨ht.line.trans h.1, by rw [ht.col, h.2], ht.type⟩

/-- Every line feed from `i` to `j` is read inside of a section. -/
def Feeds (text : List Char) (i j : ℕ) : Prop :=
  ∀ k, i ≤ k → k < j → charAt text k = '\n' → (modeAt text (k + 1)).InSection = true

theorem Feeds.trans (h₁ : Feeds text i j) (h₂ : Feeds text j k) : Feeds text i k := by
  intro m hi hk hfeed
  rcases Nat.lt_or_ge m j with h | h
  · exact h₁ m hi h hfeed
  · exact h₂ m h hk hfeed

theorem Feeds.mono (h : Feeds text i j) (hij : k ≤ j) : Feeds text i k :=
  fun m hi hk => h m hi (hk.trans_le hij)

theorem Feeds.of_no_feed (h : ∀ k, i ≤ k → k < j → charAt text k ≠ '\n') : Feeds text i j :=
  fun k hi hj hfeed => absurd hfeed (h k hi hj)

/-- Tokens of the line of `s`, yielded while the cursor went from `i` to `j`. -/
structure Placed (text : List Char) (s : LexState) (i : ℕ) (ts : List Token) (j : ℕ) : Prop where
  le : i ≤ j
  within : ∀ t ∈ ts, i ≤ t.begin ∧ t.begin ≤ t.stop ∧ t.stop ≤ j
  stamped : ∀ t ∈ ts, s.Stamps t
  feeds : Feeds text i j

theorem Placed.append (h₁ : Placed text s i ts j) (h₂ : Placed text s j us k) :
    Placed text s i (ts ++ us) k where
  le := h₁.le.trans h₂.le
  within := by
    intro t ht
    rcases List.mem_append.mp ht with ht | ht
    · have := h₁.within t ht
      have := h₂.le
      omega
    · have := h₂.within t ht
      have := h₁.le
      omega
  stamped := List.forall_mem_append.mpr ⟨h₁.stamped, h₂.stamped⟩
  feeds := h₁.feeds.trans h₂.feeds

theorem Placed.nil (hij : i ≤ j) (h : Feeds text i j) : Placed text s i [] j :=
  ⟨hij, by simp, by simp, h⟩

theorem Placed.single (ht : s.Stamps t) (hib : i ≤ t.begin) (hbe : t.begin ≤ t.stop)
    (hej : t.stop ≤ j) (h : Feeds text i j) : Placed text s i [t] j where
  le := hib.trans (hbe.trans hej)
  within := List.forall_mem_singleton.mpr ⟨hib, hbe, hej⟩
  stamped := List.forall_mem_singleton.mpr ht
  feeds := h

theorem Placed.sameLine (h : Placed text s' i ts j) (hs : SameLine s s') : Placed text s i ts j :=
  ⟨h.le, h.within, fun t ht => hs.stamps (h.stamped t ht), h.feeds⟩

/-- What is known of the tokens of a run that did not come to its end. -/
def Unfinished (text : List Char) (s : LexState) (i : ℕ) (ts : List Token) : Prop :=
  ∀ t ∈ ts, s.Stamps t ∧ i ≤ t.begin ∧ Feeds text i t.begin

theorem Unfinished.nil : Unfinished text s i [] := by
  intro t ht
  cases ht

theorem Placed.unfinished (h : Placed text s i ts j) : Unfinished text s i ts := by
  intro t ht
  obtain ⟨h₁, h₂, h₃⟩ := h.within t ht
  exact ⟨h.stamped t ht, h₁, h.feeds.mono (h₂.trans h₃)⟩

theorem Placed.append_unfinished (h₁ : Placed text s i ts j) (h₂ : Unfinished text s j us) :
    Unfinished text s i (ts ++ us) := by
  intro t ht
  rcases List.mem_append.mp ht with ht | ht
  · exact h₁.unfinished t ht
  · obtain ⟨hs, hj, hfeeds⟩ := h₂ t ht
    exact ⟨hs, h₁.le.trans hj, h₁.feeds.trans hfeeds⟩

theorem Unfinished.sameLine (h : Unfinished text s' i ts) (hs : SameLine s s') :
    Unfinished text s i ts :=
  fun t ht => ⟨hs.stamps (h t ht).1, (h t ht).2⟩

/-! ### Brackets -/

/-- A token says of the brackets what the text says. -/
structure Token.Faithful (text : List Char) (t : Token) : Prop where
  link : t.ttype = .beginLink → t.value text = ['[', '@']
  aside : t.ttype = .beginAside → t.value text = ['[', '^']
  anchor : t.ttype = .beginAnchor →
    t.value text = ['['] ∧ text[t.stop]? ≠ some '@' ∧ text[t.stop]? ≠ some '^'
  closing : t.ttype = .endHypertext → t.value text = [']']
  within : t.begin ≤ t.stop ∧ t.stop ≤ text.length

/-- A section opens at `k`. -/
def OpensAt (text : List Char) (k : ℕ) : Prop :=
  k < text.length ∧ charAt text k = '[' ∧ ∃ d, modeAt text (k + 1) = .text (d + 1) .fresh

/-- A section is divided at `k`. -/
def DividesAt (text : List Char) (k : ℕ) : Prop :=
  k < text.length ∧ charAt text k = '|' ∧ ∃ d, modeAt text (k + 1) = .divider d

/-- The opener of a link or an aside, which is read as that of an anchor; or a divider that
ends the text, or has a closing bracket behind the character after it. -/
def Misread (text : List Char) (k : ℕ) : Prop :=
  (OpensAt text k ∧ (text[k + 1]? = some '@' ∨ text[k + 1]? = some '^')) ∨
    (DividesAt text k ∧ (k + 1 = text.length ∨ ']' ∈ text.drop (k + 2)))

/-- Nothing between `i` and `j` is misread. -/
def ReadsWell (text : List Char) (i j : ℕ) : Prop := ∀ k, i ≤ k → k < j → ¬ Misread text k

theorem readsWell_trans (hij : i ≤ j) (hjk : j ≤ k) :
    ReadsWell text i k ↔ ReadsWell text i j ∧ ReadsWell text j k := by
  constructor
  · exact fun h => ⟨fun m hi hj => h m hi (hj.trans_le hjk), fun m hj hk => h m (hij.trans hj) hk⟩
  · rintro ⟨h₁, h₂⟩ m hi hk
    rcases Nat.lt_or_ge m j with h | h
    · exact h₁ m hi h
    · exact h₂ m h hk

/-- The tokens are faithful, and the cursor stays in the text, exactly if the stretch is read
well. -/
def FaithfulOver (text : List Char) (i : ℕ) (ts : List Token) (j : ℕ) : Prop :=
  i ≤ text.length → ((∀ t ∈ ts, t.Faithful text) ∧ j ≤ text.length ↔ ReadsWell text i j)

theorem FaithfulOver.append (h₁ : FaithfulOver text i ts j) (h₂ : FaithfulOver text j us k)
    (hij : i ≤ j) (hjk : j ≤ k) : FaithfulOver text i (ts ++ us) k := by
  intro hi
  rw [readsWell_trans hij hjk, ← h₁ hi, List.forall_mem_append]
  constructor
  · rintro ⟨⟨hts, hus⟩, hk⟩
    exact ⟨⟨hts, hjk.trans hk⟩, (h₂ (hjk.trans hk)).mp ⟨hus, hk⟩⟩
  · rintro ⟨⟨hts, hj⟩, hwell⟩
    obtain ⟨hus, hk⟩ := (h₂ hj).mpr hwell
    exact ⟨⟨hts, hus⟩, hk⟩

/-- A stretch of the text and the tokens for it. -/
structure Segment (text : List Char) (s : LexState) (i : ℕ) (ts : List Token) (j : ℕ) : Prop
    extends Placed text s i ts j where
  faithful : FaithfulOver text i ts j
  closes : ts.Pairwise fun t u => t.ttype = .endHypertext → t.stop ≤ u.begin
  chain : ts.IsChain fun t u =>
    t.ttype = .endHypertext → u.begin = skipWhitespace text t.stop text.length
  first : ∀ t ∈ ts.head?, t.begin = skipWhitespace text i text.length
  none : ts = [] → skipWhitespace text i text.length = skipWhitespace text j text.length
  last : ∀ t ∈ ts.getLast?, t.ttype = .endHypertext →
    skipWhitespace text t.stop text.length = skipWhitespace text j text.length

/-- **Segments compose.** -/
theorem Segment.append (h₁ : Segment text s i ts j) (h₂ : Segment text s j us k) :
    Segment text s i (ts ++ us) k where
  toPlaced := h₁.toPlaced.append h₂.toPlaced
  faithful := h₁.faithful.append h₂.faithful h₁.le h₂.le
  closes := by
    refine List.pairwise_append.mpr ⟨h₁.closes, h₂.closes, fun t ht u hu _ => ?_⟩
    exact (h₁.within t ht).2.2.trans (h₂.within u hu).1
  chain := by
    refine List.isChain_append.mpr ⟨h₁.chain, h₂.chain, fun t ht u hu hclose => ?_⟩
    rw [h₂.first u hu, h₁.last t ht hclose]
  first := by
    intro t ht
    cases ts with
    | nil => rw [h₂.first t ht, h₁.none rfl]
    | cons u ts => exact h₁.first t ht
  none := by
    intro h
    obtain ⟨hts, hus⟩ := List.append_eq_nil_iff.mp h
    rw [h₁.none hts, h₂.none hus]
  last := by
    intro t ht hclose
    cases us with
    | nil =>
      rw [List.append_nil] at ht
      rw [h₁.last t ht hclose, h₂.none rfl]
    | cons u us =>
      rw [List.getLast?_append_of_ne_nil _ (List.cons_ne_nil u us)] at ht
      exact h₂.last t ht hclose

/-- The types of tokens that speak of brackets. -/
def TokType.isBracket : TokType → Bool
  | .beginLink | .beginAside | .beginAnchor | .endHypertext => true
  | _ => false

theorem Token.faithful_of_not_bracket (htt : t.ttype.isBracket = false)
    (hwithin : t.begin ≤ t.stop ∧ t.stop ≤ text.length) : t.Faithful text where
  link h := by simp [h, TokType.isBracket] at htt
  aside h := by simp [h, TokType.isBracket] at htt
  anchor h := by simp [h, TokType.isBracket] at htt
  closing h := by simp [h, TokType.isBracket] at htt
  within := hwithin

/-- No token at all, over blanks. -/
theorem Segment.nil (hij : i ≤ j) (hj : i ≤ text.length → j ≤ text.length)
    (hskip : skipWhitespace text i text.length = skipWhitespace text j text.length)
    (hfeeds : Feeds text i j) (hwell : ReadsWell text i j) : Segment text s i [] j where
  toPlaced := Placed.nil hij hfeeds
  faithful hi := ⟨fun _ => hwell, fun _ => ⟨by simp, hj hi⟩⟩
  closes := .nil
  chain := .nil
  first := by simp
  none _ := hskip
  last := by simp

/-- Where the cursor has not moved. -/
theorem Segment.empty (s : LexState) (i : ℕ) : Segment text s i [] i :=
  .nil le_rfl (fun h => h) rfl (fun _ h₁ h₂ => absurd h₁ (by omega))
    fun _ h₁ h₂ => absurd h₁ (by omega)

/-- One token that does not speak of brackets. -/
theorem Segment.single (htt : t.ttype.isBracket = false)
    (hj : i ≤ text.length → j ≤ text.length)
    (hbegin : t.begin = skipWhitespace text i text.length) (h : Placed text s i [t] j)
    (hwell : ReadsWell text i j) : Segment text s i [t] j where
  toPlaced := h
  faithful hi := by
    obtain ⟨-, hbe, hej⟩ := h.within t List.mem_cons_self
    refine ⟨fun _ => hwell, fun _ => ⟨List.forall_mem_singleton.mpr ?_, hj hi⟩⟩
    exact Token.faithful_of_not_bracket htt ⟨hbe, hej.trans (hj hi)⟩
  closes := List.pairwise_singleton _ _
  chain := .singleton _
  first := by simpa using hbegin
  none h := by cases h
  last := by
    intro u hu hclose
    obtain rfl : t = u := by simpa using hu
    simp [hclose, TokType.isBracket] at htt

/-- A character that is neither an opening bracket nor a divider is read well. -/
theorem not_misread (hopen : charAt text k ≠ '[') (hdivide : charAt text k ≠ '|') :
    ¬ Misread text k := by
  rintro (⟨⟨-, h, -⟩, -⟩ | ⟨⟨-, h, -⟩, -⟩)
  · exact hopen h
  · exact hdivide h

theorem BlankRun.readsWell (h : BlankRun text i j) : ReadsWell text i j := by
  intro k hi hj
  refine not_misread (fun hc => ?_) fun hc => ?_
  · have hblank := h k hi hj
    rw [hc] at hblank
    cases hblank
  · have hblank := h k hi hj
    rw [hc] at hblank
    cases hblank

theorem BlankRun.skip_eq (h : BlankRun text i j) (hij : i ≤ j) (hj : j ≤ text.length) :
    skipWhitespace text i text.length = skipWhitespace text j text.length := by
  induction j, hij using Nat.le_induction with
  | base => rfl
  | succ j hij ih =>
    rw [ih (fun k h₁ h₂ => h k h₁ (by omega)) (by omega)]
    exact scanWhile_of_true (q := fun k => isBlank (charAt text k)) (by omega)
      (h j hij (Nat.lt_succ_self j))

/-- Nothing is skipped at the end of the text. -/
theorem skipWhitespace_of_le (h : text.length ≤ i) : skipWhitespace text i text.length = i :=
  scanWhile_of_le h

/-- A blank stretch without tokens. -/
theorem Segment.blank (hij : i ≤ j) (hj : j ≤ text.length) (h : BlankRun text i j) :
    Segment text s i [] j :=
  .nil hij (fun _ => hj) (h.skip_eq hij hj) (.of_no_feed h.no_feed) h.readsWell

/-- The slice of a token that spans one character. -/
theorem value_of_length_one {c : Char} (hi : i < text.length) (hc : charAt text i = c)
    (hbegin : t.begin = i) (hstop : t.stop = i + 1) : t.value text = [c] := by
  have hget : text[i] = c := by
    rw [← hc, charAt, List.getD_eq_getElem?_getD, List.getElem?_eq_getElem hi, Option.getD_some]
  rw [Token.value, hbegin, hstop, List.take_add_one, List.getElem?_eq_getElem hi, hget,
    List.drop_append_of_le_length (by rw [List.length_take]; omega),
    List.drop_eq_nil_of_le (by rw [List.length_take]; omega)]
  rfl

/-- The opener of a section. -/
theorem Segment.opener (hs : SameLine s s') (h : OpensAt text i) :
    Segment text s i [s'.token .beginAnchor i (i + 1)] (i + 1) := by
  obtain ⟨hi, hc, d, hmode⟩ := h
  have hvalue : (s'.token .beginAnchor i (i + 1)).value text = ['['] :=
    value_of_length_one hi hc rfl rfl
  have hplaced : Placed text s i [s'.token .beginAnchor i (i + 1)] (i + 1) := by
    refine .single (LexState.stamps_token hs rfl _ _) le_rfl (Nat.le_succ i) le_rfl ?_
    refine .of_no_feed fun k h₁ h₂ => ?_
    obtain rfl : k = i := by omega
    rw [hc]
    decide
  refine ⟨hplaced, fun _ => ?_, List.pairwise_singleton _ _, .singleton _, ?_, by simp, ?_⟩
  · have hmis : Misread text i ↔ text[i + 1]? = some '@' ∨ text[i + 1]? = some '^' := by
      refine ⟨fun h => ?_, fun h => .inl ⟨⟨hi, hc, d, hmode⟩, h⟩⟩
      rcases h with ⟨-, h⟩ | ⟨⟨-, h, -⟩, -⟩
      · exact h
      · rw [hc] at h
        cases h
    constructor
    · rintro ⟨hfaith, -⟩ k h₁ h₂ hk
      obtain rfl : k = i := by omega
      obtain ⟨-, hat, hcaret⟩ := (List.forall_mem_singleton.mp hfaith).anchor rfl
      exact (hmis.mp hk).elim hat hcaret
    · intro hwell
      have hgood := hwell i le_rfl (Nat.lt_succ_self i)
      rw [hmis, not_or] at hgood
      exact ⟨List.forall_mem_singleton.mpr ⟨fun h => (by cases h), fun h => (by cases h),
        fun _ => ⟨hvalue, hgood⟩, fun h => (by cases h), Nat.le_succ i, hi⟩, hi⟩
  · intro t ht
    obtain rfl := Option.mem_some_iff.mp ht
    exact (skipWhitespace_of_not_blank (i := i) (by rw [hc]; rfl)).symm
  · intro t ht hclose
    obtain rfl := Option.mem_some_iff.mp ht
    cases hclose

/-- The closing bracket of a section. -/
theorem Segment.closer (hs : SameLine s s') (hi : i < text.length) (hc : charAt text i = ']') :
    Segment text s i [s'.token .endHypertext i (i + 1)] (i + 1) := by
  have hvalue : (s'.token .endHypertext i (i + 1)).value text = [']'] :=
    value_of_length_one hi hc rfl rfl
  have hone : ∀ k, i ≤ k → k < i + 1 → charAt text k = ']' := by
    intro k h₁ h₂
    obtain rfl : k = i := by omega
    exact hc
  have hplaced : Placed text s i [s'.token .endHypertext i (i + 1)] (i + 1) :=
    .single (LexState.stamps_token hs rfl _ _) le_rfl (Nat.le_succ i) le_rfl
      (.of_no_feed fun k h₁ h₂ => by rw [hone k h₁ h₂]; decide)
  have hwell : ReadsWell text i (i + 1) := fun k h₁ h₂ =>
    not_misread (by rw [hone k h₁ h₂]; decide) (by rw [hone k h₁ h₂]; decide)
  refine ⟨hplaced, fun _ => ⟨fun _ => hwell, fun _ => ⟨?_, hi⟩⟩, List.pairwise_singleton _ _,
    .singleton _, ?_, by simp, ?_⟩
  · exact List.forall_mem_singleton.mpr ⟨fun h => (by cases h), fun h => (by cases h),
      fun h => (by cases h), fun _ => hvalue, Nat.le_succ i, hi⟩
  · intro t ht
    obtain rfl := Option.mem_some_iff.mp ht
    exact (skipWhitespace_of_not_blank (i := i) (by rw [hc]; rfl)).symm
  · intro t ht _
    obtain rfl := Option.mem_some_iff.mp ht
    rfl

/-! ### Break scans -/

/-- No stop character stands before the end of a scan. -/
theorem IsBreak.notMem {any : List Char} {n b e : ℕ} {c : Option Char}
    (h : IsBreak text any i n b e j c) (hany : ∀ c ∈ any, isBlank c = false) (hi : i ≤ k)
    (hj : k < j) : charAt text k ∉ any := by
  rcases Nat.lt_or_ge k b with hkb | hkb
  · intro hmem
    have hblank := h.lead_blank k hi hkb
    rw [hany _ hmem] at hblank
    cases hblank
  · exact h.not_any k hkb hj

/-- Every mode of a scan belongs to its family. -/
theorem IsBreak.modes {any : List Char} {b e : ℕ} {c : Option Char} {f : Run → Mode}
    (h : IsBreak text any i text.length b e j c) (hany : ∀ c ∈ any, isBlank c = false)
    (hfirst : modeAt text (i + 1) = (f .fresh).step (charAt text i))
    (hstep : ∀ c r, c ∉ any → (f r).step c = f (r.next c)) (hik : i ≤ k) (hkj : k < j) :
    ∃ r, modeAt text (k + 1) = f r := by
  induction k, hik using Nat.le_induction with
  | base => exact ⟨_, by rw [hfirst, hstep _ _ (h.notMem hany le_rfl hkj)]⟩
  | succ k hik ih =>
    obtain ⟨r, hr⟩ := ih (by omega)
    have hlt : k + 1 < text.length := hkj.trans_le h.le_stop
    exact ⟨_, by rw [modeAt_succ hlt, hr, hstep _ _ (h.notMem hany (by omega) hkj)]⟩

theorem IsBreak.skip_eq {any : List Char} {b e : ℕ} {c : Option Char}
    (h : IsBreak text any i text.length b e j c) : skipWhitespace text i text.length = b := by
  rw [h.lead_blank.skip_eq h.le_begin h.begin_lt.le,
    skipWhitespace_of_not_blank h.begin_not_blank]

/-- **The token of a break scan**, if its text is not empty. -/
theorem IsBreak.segment {any : List Char} {b e stop : ℕ} {c : Option Char}
    (h : IsBreak text any i text.length b e j c) (hs : SameLine s s')
    (hstop : e ≤ stop) (hstop' : stop ≤ j)
    (hfeeds : Feeds text i j) (hwell : ReadsWell text i j) :
    Segment text s i (if decide (b < e) then [s'.token .text b stop] else []) j := by
  by_cases hlt : b < e
  · rw [if_pos (decide_eq_true hlt)]
    exact .single rfl (fun _ => h.le_stop) h.skip_eq.symm
      (.single (LexState.stamps_token hs rfl _ _) h.le_begin (h.begin_le.trans hstop) hstop' hfeeds)
      hwell
  · rw [if_neg (by simpa using hlt)]
    have hbj : b = j := by
      have := h.begin_le.trans h.end_le
      have := mt h.lt_end hlt
      omega
    exact .blank h.le h.le_stop (hbj ▸ h.lead_blank)

/-! ### Sections -/

/-- Every line feed from `i` to `j` is followed by the begin of one of the tokens. -/
def Noted (text : List Char) (i : ℕ) (ts : List Token) (j : ℕ) : Prop :=
  ∀ k, i ≤ k → k < j → charAt text k = '\n' → ∃ t ∈ ts, k < t.begin

/-- A token at the end of a stretch notes all line feeds in it. -/
theorem Noted.snoc (h : j ≤ t.begin) : Noted text i (ts ++ [t]) j :=
  fun _ _ hk _ => ⟨t, by simp, hk.trans_le h⟩

/-- So does one on its last character, unless that is a line feed. -/
theorem Noted.snoc_of_ne (h : j ≤ t.begin) (hc : charAt text j ≠ '\n') :
    Noted text i (ts ++ [t]) (j + 1) := by
  intro k _ hk hfeed
  rcases Nat.lt_succ_iff_lt_or_eq.mp hk with hlt | rfl
  · exact ⟨t, by simp, hlt.trans_le h⟩
  · exact absurd hfeed hc

theorem Noted.append (h₁ : Noted text i ts j) (h₂ : Noted text j us k) :
    Noted text i (ts ++ us) k := by
  intro m hi hk hfeed
  rcases Nat.lt_or_ge m j with h | h
  · obtain ⟨t, ht, hlt⟩ := h₁ m hi h hfeed
    exact ⟨t, List.mem_append_left us ht, hlt⟩
  · obtain ⟨t, ht, hlt⟩ := h₂ m h hk hfeed
    exact ⟨t, List.mem_append_right ts ht, hlt⟩

/-- Line feeds are noted by whatever token of the line comes next. -/
theorem Noted.append_of_ne_nil (hus : us ≠ []) (hplaced : Placed text s j us k)
    (h : Noted text j us k) : Noted text i (ts ++ us) k := by
  obtain ⟨u, us, rfl⟩ := List.exists_cons_of_ne_nil hus
  intro m hi hk hfeed
  rcases Nat.lt_or_ge m j with hlt | hge
  · exact ⟨u, by simp, hlt.trans_le (hplaced.within u List.mem_cons_self).1⟩
  · obtain ⟨t, ht, hlt⟩ := h m hge hk hfeed
    exact ⟨t, List.mem_append_right ts ht, hlt⟩

theorem Segment.sameLine (h : Segment text s' i ts j) (hs : SameLine s s') :
    Segment text s i ts j :=
  { h with toPlaced := h.toPlaced.sameLine hs }

/-- A cursor beyond the end of the text is noted by a token that goes beyond it. -/
def Overrun (text : List Char) (ts : List Token) (j : ℕ) : Prop :=
  text.length < j → ∃ t ∈ ts, text.length < t.stop

theorem Overrun.of_le (h : j ≤ text.length) : Overrun text ts j := fun hj => absurd h (by omega)

theorem Overrun.append (h : Overrun text us j) : Overrun text (ts ++ us) j := by
  intro hj
  obtain ⟨t, ht, hlt⟩ := h hj
  exact ⟨t, List.mem_append_right ts ht, hlt⟩

/-- How the loop of a section is left. Its line feeds are noted by its own tokens, or by the
report of the error, or by the token for the bracket at which the divided section is left. -/
structure LoopLeft (text : List Char) (s : LexState) (ecode : Option ErrorCode)
    (ts : List Token) (s' : LexState) : Prop where
  segment : Segment text s s.i ts s'.i
  line : SameLine s s'
  ne_nil : s.i < text.length → ts ≠ []
  ends : ecode ≠ none → text.length ≤ s'.i
  inside : ecode = none → s'.i ≤ text.length
  unclosed : text.length ≤ s.i → ecode ≠ none
  noted : ecode = none →
    Noted text s.i ts s'.i ∨ (s'.i < text.length ∧ charAt text s'.i = ']')

/-- How it is left by an exception, which is on blanks at the end of the text. -/
structure LoopRaised (text : List Char) (s : LexState) (e : PyError × Option ErrorCode)
    (ts : List Token) (s' : LexState) : Prop where
  placed : Placed text s s.i ts s'.i
  line : SameLine s s'
  blank : BlankRun text s'.i text.length
  code : e.2 ≠ none

/-- Tokens before those of the loop. -/
theorem LoopLeft.prepend {s₁ : LexState} {ecode : Option ErrorCode}
    (h : LoopLeft text s₁ ecode us s') (hseg : Segment text s s.i ts s₁.i)
    (hs : SameLine s s₁) (hts : ts ≠ []) : LoopLeft text s ecode (ts ++ us) s' where
  segment := hseg.append (h.segment.sameLine hs)
  line := hs.trans h.line
  ne_nil _ := by simp [hts]
  ends := h.ends
  inside := h.inside
  unclosed hge := h.unclosed (hge.trans hseg.le)
  noted hcode := by
    have hlt : s₁.i < text.length := by
      by_contra hge
      exact h.unclosed (by omega) hcode
    exact (h.noted hcode).imp_left fun hnoted =>
      .append_of_ne_nil (h.ne_nil hlt) h.segment.toPlaced hnoted

theorem LoopRaised.prepend {s₁ : LexState} {e : PyError × Option ErrorCode}
    (h : LoopRaised text s₁ e us s') (hplaced : Placed text s s.i ts s₁.i)
    (hs : SameLine s s₁) : LoopRaised text s e (ts ++ us) s' where
  placed := hplaced.append (h.placed.sameLine hs)
  line := hs.trans h.line
  blank := h.blank
  code := h.code

/-- The contract of `_hypertext`, on a bracket that opens a section. -/
def SectionSegment (text : List Char) (fuel : ℕ) : Prop :=
  ∀ s, OpensAt text s.i →
    (hypertext text fuel).wp s
      (fun _ ts s' => Segment text s s.i ts s'.i ∧ SameLine s s' ∧ ts ≠ [] ∧
        Overrun text ts s'.i ∧
        (Noted text s.i ts s'.i ∨ (s'.i < text.length ∧ charAt text s'.i = ']')))
      (fun _ ts s' => Placed text s s.i ts s'.i ∧ SameLine s s' ∧
        BlankRun text s'.i text.length ∧ Noted text s.i ts s'.i)
      (Unfinished text s s.i)

/-- The contract of its loop, inside of a section. -/
def LoopSegment (text : List Char) (fuel : ℕ) : Prop :=
  ∀ s d, GoesOn text (.text (d + 1) .fresh) s.i →
    (hypertextLoop text ['[', '|', ']'] fuel).wp s (LoopLeft text s) (LoopRaised text s)
      (Unfinished text s s.i)

/-- Going round the loop, after tokens up to where it goes on. -/
theorem LoopSegment.again {fuel : ℕ} {s₁ : LexState} (h : LoopSegment text fuel)
    (hgo : GoesOn text (.text (d + 1) .fresh) s₁.i) (hseg : Segment text s s.i ts s₁.i)
    (hs : SameLine s s₁) (hts : ts ≠ []) :
    (hypertextLoop text ['[', '|', ']'] fuel).wp s₁
      (fun ecode us s' => LoopLeft text s ecode (ts ++ us) s')
      (fun e us s' => LoopRaised text s e (ts ++ us) s')
      fun us => Unfinished text s s.i (ts ++ us) := by
  refine (h s₁ d hgo).imp ?_ ?_ ?_
  · exact fun _ _ _ hleft => hleft.prepend hseg hs hts
  · exact fun _ _ _ hraised => hraised.prepend hseg.toPlaced hs
  · exact fun _ hus => hseg.toPlaced.append_unfinished (hus.sameLine hs)

/-- Reporting an error where no line feed follows: a token of its own, and nothing else. -/
theorem wp_lexError_last {code : ErrorCode} {R : Unit → List Token → LexState → Prop}
    {E : PyError → List Token → LexState → Prop} {H : List Token → Prop}
    (hlast : ∀ k, s.i ≤ k → k < text.length → charAt text k ≠ '\n')
    (h : R () [{ s.token .lexError s.i s.i with error := some code }] s) :
    (lexError text code).wp s R E H := by
  have hnone : findLineBreak text s.i = none := by
    unfold findLineBreak
    rw [if_neg]
    intro hlt
    have hstop := scanWhile_stop (q := fun k => charAt text k ≠ '\n') hlt
    have hle := le_scanWhile (fun k => charAt text k ≠ '\n') s.i text.length
    simp only [decide_eq_false_iff_not, not_not] at hstop
    exact hlast _ hle hlt hstop
  simp only [lexError, Gen.wp_bind, Gen.wp_get, Gen.wp_emit, hnone, Gen.wp_pure]
  exact h

/-- The error token, at the cursor. -/
theorem Placed.error (hs : SameLine s s') (code : ErrorCode) (i : ℕ) :
    Placed text s i [{ s'.token .lexError i i with error := some code }] i := by
  have hstamps : s.Stamps (s'.token .lexError i i) := LexState.stamps_token hs rfl i i
  exact .single ⟨hstamps.line, hstamps.col, rfl⟩ le_rfl le_rfl le_rfl
    fun k h₁ h₂ => absurd h₁ (by omega)

theorem Segment.error (hs : SameLine s s') (code : ErrorCode) (hi : text.length ≤ i) :
    Segment text s i [{ s'.token .lexError i i with error := some code }] i :=
  .single rfl (fun h => h) (skipWhitespace_of_le hi).symm (.error hs code i)
    fun k h₁ h₂ => absurd h₁ (by omega)

/-- A section is its opener, the loop and the report of an error that is left. -/
theorem LoopSegment.section_succ {fuel : ℕ} (h : LoopSegment text fuel) :
    SectionSegment text (fuel + 1) := by
  intro s hopens
  obtain ⟨hi, hc, d, hmode⟩ := id hopens
  have hopener := Segment.opener (SameLine.refl s) hopens
  have hline := SameLine.moveTo s (s.i + 1)
  simp only [hypertext, Gen.wp_protect, Gen.wp_bind, Gen.wp_get, Gen.wp_emit, Gen.wp_modify,
    opener_of_bracket hc, List.nil_append]
  refine (h (s.moveTo (s.i + 1)) d (GoesOn.of_mode hmode rfl hi)).imp ?_ ?_ ?_
  · rintro (_ | code) ts s' hleft
    · have hseg := hopener.append (hleft.segment.sameLine hline)
      refine ⟨by simpa using hseg, hline.trans hleft.line, by simp, .of_le (hleft.inside rfl), ?_⟩
      refine (hleft.noted rfl).imp_left fun hnoted => ?_
      have hfirst : Noted text s.i [s.token .beginAnchor s.i (s.i + 1)] (s.i + 1) := by
        intro k h₁ h₂ hfeed
        obtain rfl : k = s.i := by omega
        rw [hc] at hfeed
        cases hfeed
      simpa using hfirst.append hnoted
    · have hend := hleft.ends (by simp)
      refine wp_lexError_last (fun k h₁ h₂ => absurd h₁ (by omega)) ?_
      have hline' := hline.trans hleft.line
      have hseg := (hopener.append (hleft.segment.sameLine hline)).append
        (Segment.error hline' code hend)
      exact ⟨hseg, hline', by simp, fun hlt => ⟨_, List.mem_append_right _ List.mem_cons_self,
        hlt⟩, .inl (.snoc le_rfl)⟩
  · rintro ⟨e, _ | code⟩ ts s' hraised
    · exact absurd rfl hraised.code
    · refine wp_lexError_last hraised.blank.no_feed ?_
      have hline' := hline.trans hraised.line
      have hplaced := (hopener.toPlaced.append (hraised.placed.sameLine hline)).append
        (Placed.error hline' code _)
      exact ⟨hplaced, hline', hraised.blank, .snoc le_rfl⟩
  · intro ts hts
    exact hopener.toPlaced.append_unfinished (hts.sameLine hline)

/-- The character and the mode behind a divider. -/
theorem mode_after_divider (hr : modeAt text (j + 1) = .divider d) (hj : j + 1 < text.length) :
    modeAt text (j + 2) = .target d .fresh := by
  rw [modeAt_succ hj, hr]
  rfl

/-- Between a divider and the position `k`, everything is read as the target of the section. -/
structure TargetRun (text : List Char) (d j k : ℕ) : Prop where
  divides : DividesAt text j
  le : j + 2 ≤ k
  modes : ∀ m, j < m → m < k → m < text.length → ∃ r, modeAt text (m + 1) = .target d r

theorem TargetRun.feeds (h : TargetRun text d j k) : Feeds text j k := by
  intro m h₁ h₂ hfeed
  have hne : j ≠ m := by
    rintro rfl
    rw [h.divides.2.1] at hfeed
    cases hfeed
  have hlt : m < text.length := by
    by_contra hge
    rw [charAt, List.getD_eq_getElem?_getD, List.getElem?_eq_none (by omega)] at hfeed
    cases hfeed
  obtain ⟨r, hr⟩ := h.modes m (by omega) h₂ hlt
  rw [hr]
  rfl

/-- The target is read well if and only if its divider is. -/
theorem TargetRun.readsWell (h : TargetRun text d j k) :
    ReadsWell text j k ↔ j + 1 ≠ text.length ∧ ']' ∉ text.drop (j + 2) := by
  rw [← not_or]
  have hle := h.le
  constructor
  · exact fun hwell hbad => hwell j le_rfl (by omega) (.inr ⟨h.divides, hbad⟩)
  · rintro hgood m h₁ h₂ hmis
    rcases Nat.eq_or_lt_of_le h₁ with rfl | hlt
    · rcases hmis with ⟨⟨-, hc, -⟩, -⟩ | ⟨-, hbad⟩
      · rw [h.divides.2.1] at hc
        cases hc
      · exact hgood hbad
    · rcases hmis with ⟨⟨hm, -, d', hmode⟩, -⟩ | ⟨⟨hm, -, d', hmode⟩, -⟩
      all_goals
        obtain ⟨r, hr⟩ := h.modes m hlt h₂ hm
        rw [hr] at hmode
        cases hmode

theorem DividesAt.skip_eq (h : DividesAt text j) : j = skipWhitespace text j text.length :=
  (skipWhitespace_of_not_blank (by rw [h.2.1]; rfl)).symm

/-- A divider that ends the text, or has one more character behind it. -/
theorem Segment.divider (hs : SameLine s s') (h : DividesAt text j)
    (hd : modeAt text (j + 1) = .divider d) (hend : text.length ≤ j + 2) :
    Segment text s j [s'.token .hypertextDivider j (j + 1)] (j + 2) := by
  have hj := h.1
  have hrun : TargetRun text d j (j + 2) := by
    refine ⟨h, le_rfl, fun m h₁ h₂ hm => ⟨.fresh, ?_⟩⟩
    obtain rfl : m = j + 1 := by omega
    exact mode_after_divider hd hm
  refine ⟨.single (LexState.stamps_token hs rfl _ _) le_rfl (Nat.le_succ j) (Nat.le_succ _)
    hrun.feeds, fun _ => ?_, List.pairwise_singleton _ _, .singleton _, ?_, by simp, ?_⟩
  · rw [hrun.readsWell, List.drop_eq_nil_of_le hend]
    constructor
    · rintro ⟨-, hle⟩
      exact ⟨by omega, List.not_mem_nil⟩
    · rintro ⟨hne, -⟩
      exact ⟨List.forall_mem_singleton.mpr
        (Token.faithful_of_not_bracket rfl ⟨Nat.le_succ j, hj⟩), by omega⟩
  · intro t ht
    obtain rfl := Option.mem_some_iff.mp ht
    exact h.skip_eq
  · intro t ht hclose
    obtain rfl := Option.mem_some_iff.mp ht
    cases hclose

/-- Where only the last token can be a closing one, nothing is asked of the pairs. -/
theorem pairwise_snoc_of_no_close {P : Token → Token → Prop}
    (h : ∀ t ∈ ts, t.ttype ≠ .endHypertext) :
    (ts ++ [u]).Pairwise fun t v => t.ttype = .endHypertext → P t v := by
  induction ts with
  | nil => exact List.pairwise_singleton _ _
  | cons t ts ih =>
    obtain ⟨ht, hts⟩ := List.forall_mem_cons.mp h
    exact List.pairwise_cons.mpr ⟨fun _ _ hclose => absurd hclose ht, ih hts⟩

theorem Placed.both (h₁ : Placed text s i ts j) (h₂ : Placed text s i us j) :
    Placed text s i (ts ++ us) j :=
  ⟨h₁.le, List.forall_mem_append.mpr ⟨h₁.within, h₂.within⟩,
    List.forall_mem_append.mpr ⟨h₁.stamped, h₂.stamped⟩, h₁.feeds⟩

/-- The closing token of a divided section spans the text before the bracket. -/
theorem IsBreak.not_faithful {b e : ℕ} {c : Option Char}
    (h : IsBreak text [']'] i text.length b e j c) :
    ¬ (s.token .endHypertext b e).Faithful text := by
  intro hfaith
  have hvalue := hfaith.closing rfl
  have hlen : e - b = 1 := by
    have hlength := congrArg List.length hvalue
    have he := h.end_le.trans h.le_stop
    simpa [Token.value, LexState.token, he] using hlength
  have hbj : b < j := by
    have := h.end_le
    omega
  refine h.not_any b le_rfl hbj ?_
  have hget : text[b]? = some ']' := by
    have hhead := congrArg (fun l : List Char => l[0]?) hvalue
    have hbe : b < e := by omega
    simpa [Token.value, LexState.token, List.getElem?_take, hbe] using hhead
  rw [charAt, List.getD_eq_getElem?_getD, hget]
  simp

theorem TargetRun.divider (h : TargetRun text d j k) (s : LexState) :
    Placed text s j [s.token .hypertextDivider j (j + 1)] (j + 2) :=
  .single (LexState.stamps_token (.refl s) rfl _ _) le_rfl (Nat.le_succ j) (Nat.le_succ _)
    (h.feeds.mono h.le)

/-- A divided section with a closing bracket: its last token misrepresents it. -/
theorem Segment.closed_target {b e : ℕ} {c : Option Char} (hs : SameLine s s')
    (hrun : TargetRun text d j k) (hbr : IsBreak text [']'] (j + 2) text.length b e k c)
    (hk : k < text.length) (hc : charAt text k = ']') :
    Segment text s j (s.token .hypertextDivider j (j + 1) ::
      ((if decide (b < e) then [s'.token .text b e] else []) ++ [s'.token .endHypertext b e]))
      k := by
  have hfeeds : Feeds text (j + 2) k := fun m h₁ h₂ => hrun.feeds m (by omega) h₂
  have htext : Placed text s (j + 2)
      (if decide (b < e) then [s'.token .text b e] else []) k := by
    split_ifs
    · exact .single (LexState.stamps_token hs rfl _ _) hbr.le_begin hbr.begin_le hbr.end_le hfeeds
    · exact .nil hbr.le hfeeds
  have hclose : Placed text s (j + 2) [s'.token .endHypertext b e] k :=
    .single (LexState.stamps_token hs rfl _ _) hbr.le_begin hbr.begin_le hbr.end_le hfeeds
  have hno : ∀ t ∈ s.token .hypertextDivider j (j + 1) ::
      (if decide (b < e) then [s'.token .text b e] else []), t.ttype ≠ .endHypertext := by
    split_ifs <;> simp [LexState.token]
  refine ⟨(hrun.divider s).append (htext.both hclose), fun _ => iff_of_false ?_ ?_,
    pairwise_snoc_of_no_close hno, (pairwise_snoc_of_no_close hno).isChain, ?_,
    fun h => (by cases h), ?_⟩
  · rintro ⟨hfaith, -⟩
    exact hbr.not_faithful (hfaith (s'.token .endHypertext b e) (by simp))
  · rw [hrun.readsWell, not_and, not_not]
    intro _
    have hle := hrun.le
    have hget : (text.drop (j + 2))[k - (j + 2)]? = some ']' := by
      rw [List.getElem?_drop, Nat.add_sub_cancel' hle, List.getElem?_eq_getElem hk, ← hc, charAt,
        List.getD_eq_getElem?_getD, List.getElem?_eq_getElem hk, Option.getD_some]
    exact List.mem_of_getElem? hget
  · intro t ht
    obtain rfl := Option.mem_some_iff.mp ht
    exact hrun.divides.skip_eq
  · intro t ht _
    rw [← List.cons_append, List.getLast?_append_of_ne_nil _ (List.cons_ne_nil _ _)] at ht
    obtain rfl := Option.mem_some_iff.mp ht
    exact hbr.tail_blank.skip_eq hbr.end_le hbr.le_stop

/-- A divided section that the text leaves open. -/
theorem Segment.open_target {b e : ℕ} {c : Option Char} (hs : SameLine s s')
    (hrun : TargetRun text d j text.length)
    (hbr : IsBreak text [']'] (j + 2) text.length b e text.length c) :
    Segment text s j (s.token .hypertextDivider j (j + 1) ::
      (if decide (b < e) then [s'.token .text b e] else [])) text.length := by
  have hle := hrun.le
  have hwell : ReadsWell text j text.length := by
    refine hrun.readsWell.mpr ⟨by omega, fun hmem => ?_⟩
    obtain ⟨m, hm, hget⟩ := List.mem_iff_getElem.mp hmem
    rw [List.length_drop] at hm
    rw [List.getElem_drop] at hget
    refine hbr.notMem (by simp [isBlank, skippableWhitespace]) (Nat.le_add_right (j + 2) m)
      (by omega) ?_
    rw [charAt, List.getD_eq_getElem?_getD, List.getElem?_eq_getElem (by omega), hget]
    simp
  obtain ⟨hwell₁, hwell₂⟩ := (readsWell_trans (Nat.le_add_right j 2) hle).mp hwell
  exact Segment.append (.single rfl (fun _ => hle) hrun.divides.skip_eq (hrun.divider s) hwell₁)
    (hbr.segment hs le_rfl hbr.end_le (fun m h₁ h₂ => hrun.feeds m (by omega) h₂) hwell₂)

/-- The rest of a section behind its divider at `j`. -/
theorem hypertextTarget_segment {s₁ : LexState} (hs : SameLine s s₁) (h : DividesAt text j)
    (hd : modeAt text (j + 1) = .divider d) (hi : s₁.i = j + 2) (hlt : j + 2 < text.length) :
    (hypertextTarget text).wp s₁
      (fun ecode ts s' => Segment text s j (s.token .hypertextDivider j (j + 1) :: ts) s'.i ∧
        SameLine s s' ∧ (ecode ≠ none → text.length ≤ s'.i) ∧
        (ecode = none → s'.i < text.length ∧ charAt text s'.i = ']'))
      (fun e ts s' => Placed text s j (s.token .hypertextDivider j (j + 1) :: ts) s'.i ∧
        SameLine s s' ∧ BlankRun text s'.i text.length ∧ e.2 ≠ none)
      fun _ => False := by
  have hmode : modeAt text (j + 2) = .target d .fresh := mode_after_divider hd (by omega)
  simp only [hypertextTarget, Gen.wp_bind, Gen.wp_get, hi]
  cases hb : breakOnAny text [']'] (j + 2) text.length with
  | none =>
    have hrun : TargetRun text d j (j + 2) := by
      refine ⟨h, le_rfl, fun m h₁ h₂ hm => ⟨.fresh, ?_⟩⟩
      obtain rfl : m = j + 1 := by omega
      exact hmode
    refine ⟨?_, hs, ?_, by simp⟩
    · rw [hi]
      exact hrun.divider s
    · rw [hi]
      exact (breakOnAny_eq_none_iff hlt.le).mp hb
  | some q =>
    obtain ⟨b, e, j', c⟩ := q
    have hbr := isBreak_of_breakOnAny hlt.le hb
    have hrun : TargetRun text d j j' := by
      refine ⟨h, hbr.le, fun m h₁ h₂ hm => ?_⟩
      rcases Nat.eq_or_lt_of_le (Nat.succ_le_of_lt h₁) with rfl | hm'
      · exact ⟨.fresh, hmode⟩
      · exact hbr.modes (by simp [isBlank, skippableWhitespace])
          (by rw [modeAt_succ hlt, hmode]) (fun c r => target_family) hm' h₂
    simp only [Gen.wp_bind, Gen.wp_modify, Gen.wp_emit, Gen.wp_ite, Gen.wp_pure, wp_emitIf,
      LexState.moveTo_i, List.nil_append, List.append_nil]
    refine ⟨fun hc => ?_, fun hc => ?_⟩
    · -- the section is closed, and its closing token is not the bracket
      obtain ⟨hj', hch, -⟩ := hbr.char_mem hc
      exact ⟨.closed_target hs hrun hbr hj' hch, hs.trans (.moveTo s₁ j'),
        fun hne => absurd rfl hne, fun _ => ⟨hj', hch⟩⟩
    · obtain rfl : j' = text.length := by
        by_contra hne
        have hj' : j' < text.length := by have := hbr.le_stop; omega
        refine hc ?_
        rw [hbr.char_of_lt hj', show charAt text j' = ']' by simpa using hbr.stop_any hj']
      exact ⟨.open_target hs hrun hbr, hs.trans (.moveTo s₁ text.length), fun _ => le_rfl,
        fun hne => by cases hne⟩

/-- The text of a section up to one of its stop characters. -/
theorem IsBreak.section_text {b e : ℕ} {c : Option Char}
    (h : IsBreak text ['[', '|', ']'] i text.length b e j c)
    (hread : modeAt text (i + 1) = (Mode.text (d + 1) .fresh).step (charAt text i))
    (hs : SameLine s s') :
    Segment text s i (if decide (b < e) then [s'.token .text b e] else []) j := by
  have hany : ∀ c ∈ ['[', '|', ']'], isBlank c = false := by
    simp [isBlank, skippableWhitespace]
  refine h.segment hs le_rfl h.end_le (fun k h₁ h₂ _ => ?_) fun k h₁ h₂ => ?_
  · obtain ⟨r, hr⟩ := h.modes hany hread (fun c r => section_family) h₁ h₂
    rw [hr]
    rfl
  · have hmem := h.notMem hany h₁ h₂
    simp only [List.mem_cons, List.not_mem_nil, or_false, not_or] at hmem
    exact not_misread hmem.1 hmem.2.1

/-- One round of the loop: a break scan, and what its stop character asks for. -/
theorem LoopSegment.succ {fuel : ℕ} (hsection : SectionSegment text fuel)
    (hloop : LoopSegment text fuel) : LoopSegment text (fuel + 1) := by
  intro s d hgo
  simp only [hypertextLoop, Gen.wp_bind, Gen.wp_get, Gen.wp_ite]
  refine ⟨fun hi => ?_, fun hi => ?_⟩
  swap
  · have hge : text.length ≤ s.i := Nat.le_of_not_lt hi
    exact ⟨.empty s s.i, .refl s, fun h => absurd h hi,
      fun _ => hge, fun h => (by cases h), fun _ => by simp, fun h => by cases h⟩
  obtain ⟨-, hread⟩ | ⟨hge, -⟩ := hgo
  swap
  · omega
  obtain ⟨-, hsome⟩ := break_mode (f := Mode.text (d + 1)) hi hread
    (fun c r => section_family) (by simp [isBlank, skippableWhitespace])
  cases hb : breakOnAny text ['[', '|', ']'] s.i text.length with
  | none =>
    refine ⟨.nil le_rfl fun k h₁ h₂ => absurd h₁ (by omega), .refl s, ?_, by simp⟩
    exact (breakOnAny_eq_none_iff hi.le).mp hb
  | some q =>
    obtain ⟨b, e, j, c⟩ := q
    have hbr := isBreak_of_breakOnAny hi.le hb
    obtain ⟨hend, hin⟩ := hsome b e j c hb
    have htext := hbr.section_text hread (SameLine.refl s)
    simp only [Gen.wp_bind, Gen.wp_modify, Gen.wp_emit, Gen.wp_ite, Gen.wp_raise,
      Gen.wp_mapError, Gen.wp_pure, wp_emitIf, List.nil_append]
    refine ⟨fun hj => ?_, fun hj => ?_⟩
    · obtain ⟨r, hr⟩ := hin hj
      have hc := hbr.char_of_lt hj
      have hmem := hbr.stop_any hj
      simp only [List.mem_cons, List.not_mem_nil, or_false] at hmem
      rcases hmem with hch | hch | hch
      all_goals
        rw [hch] at hr hc
        subst hc
        simp only [Option.some.injEq, Char.reduceEq, IsEmpty.forall_iff, forall_const,
          true_and, and_true, not_true_eq_false, not_false_eq_true]
      · -- a nested section
        have hnested := hsection (s.moveTo j) ⟨hj, hch, d + 1, hr⟩
        refine (((hypertext_mode fuel).1 (s.moveTo j) (d + 1) hj hch hr).and hnested).imp
          ?_ ?_ ?_
        · rintro _ ts s' ⟨⟨-, hgo', -⟩, hseg, hline, hne, -⟩
          have hboth := htext.append (hseg.sameLine (.moveTo s j))
          simpa only [List.append_assoc] using
            hloop.again hgo' hboth ((SameLine.moveTo s j).trans hline) (by simp [hne])
        · rintro e ts s' ⟨-, hplaced, hline, hblank, -⟩
          exact ⟨htext.toPlaced.append (hplaced.sameLine (.moveTo s j)),
            (SameLine.moveTo s j).trans hline, hblank, by simp⟩
        · rintro ts ⟨-, hts⟩
          exact htext.toPlaced.append_unfinished (hts.sameLine (.moveTo s j))
      · -- the divider
        have hdivides : DividesAt text j := ⟨hj, hch, d, hr⟩
        have hline : SameLine s ((s.moveTo j).moveTo (j + 2)) := ⟨rfl, rfl⟩
        refine ⟨fun hlt => ?_, fun hge => ?_⟩
        · refine (hypertextTarget_segment hline hdivides hr rfl hlt).imp ?_ ?_ fun _ => False.elim
          · rintro ecode ts s' ⟨hseg, hline', hends, hclosed⟩
            exact ⟨htext.append hseg, hline', by simp, hends, fun h => (hclosed h).1.le,
              fun hge => absurd hi (by omega), fun h => .inr (hclosed h)⟩
          · rintro e ts s' ⟨hplaced, hline', hblank, hcode⟩
            exact ⟨htext.toPlaced.append hplaced, hline', hblank, hcode⟩
        · have hend' := Nat.le_of_not_lt hge
          have hseg := htext.append (Segment.divider (SameLine.refl s) hdivides hr hend')
          simpa only [List.append_assoc] using
            hloop.again (d := d) (.inr ⟨hend', (lexable_of_divider hj hr hend').1⟩) hseg hline
              (by simp)
      · -- the end of the section
        have hseg := htext.append (Segment.closer (SameLine.refl s) hj hch)
        refine ⟨by simpa using hseg, ⟨rfl, rfl⟩, by simp, by simp, fun _ => hj,
          fun hge => absurd hi (by omega), fun _ => .inl ?_⟩
        exact .snoc_of_ne (by simp [LexState.token]) (by rw [hch]; decide)
    · -- no stop character is left
      obtain rfl : j = text.length := by have := hbr.le_stop; omega
      refine hloop.again (d := d) (.inr ⟨le_rfl, ?_⟩) htext (.moveTo s _) ?_
      · rw [Lexable, hend rfl]
        rfl
      · simp [hbr.lt_end hbr.begin_lt]

/-- **Sections.** Every section is a segment, whether or not it is closed. -/
theorem hypertext_segment (text : List Char) (fuel : ℕ) :
    SectionSegment text fuel ∧ LoopSegment text fuel := by
  induction fuel with
  | zero =>
    constructor
    · intro s _
      simpa [hypertext] using Unfinished.nil
    · intro s d _
      simpa [hypertextLoop] using Unfinished.nil
  | succ fuel ih => exact ⟨ih.2.section_succ, LoopSegment.succ ih.1 ih.2⟩

end Intent.Py
