import Intent.Old.Lexer

/-!
# Styles of identifiers

`core/text/normalize_identifier.cpp` writes an identifier in another style. A pointer into the
identifier is the text from there on, and the functions return what they write to `out`.

`skip_to_alphanumeric` stops at a character that is *not* alphanumeric. So the first word is lost,
and the separators are read as the first characters of the words behind them
(`normalizeIdentifier_render`).
-/

namespace Intent.Old

/-! ### The function -/

/-- `identifier_style`. -/
inductive IdentifierStyle where
  | intentNoun
  | intentVerb
  | under
  | camel
  | title
  | titleUnder
  | altCamel
  | altTitle
  deriving DecidableEq, Repr

/-- `is_ascii_lower`. -/
def isAsciiLower (c : UInt8) : Bool := ch 'a' ≤ c && c ≤ ch 'z'

/-- `is_ascii_upper`. -/
def isAsciiUpper (c : UInt8) : Bool := ch 'A' ≤ c && c ≤ ch 'Z'

/-- `is_ascii_alphanumeric`. -/
def isAsciiAlphanumeric (c : UInt8) : Bool :=
  (c ≤ ch '9' && ch '0' ≤ c) || (ch 'A' ≤ c && c ≤ ch 'z' && (ch 'a' ≤ c || c ≤ ch 'Z'))

/-- `ascii_to_lower_case`. -/
def asciiToLowerCase (c : UInt8) : UInt8 := if isAsciiUpper c then c + 32 else c

/-- `ascii_to_upper_case`. -/
def asciiToUpperCase (c : UInt8) : UInt8 := if isAsciiLower c then c - 32 else c

/-- `normalize_boundary_char`. -/
def normalizeBoundaryChar (c : UInt8) (outStyle : IdentifierStyle) (wordIdx : UInt32)
    (lastWasAcronym : Bool) : Text :=
  match outStyle with
  | .intentNoun => (if wordIdx ≠ 0 then [ch ' '] else []) ++ [asciiToLowerCase c]
  | .intentVerb => if wordIdx ≠ 0 then [ch ' ', asciiToLowerCase c] else [asciiToUpperCase c]
  | .under => (if wordIdx ≠ 0 then [ch '_'] else []) ++ [asciiToLowerCase c]
  | .camel => [if wordIdx = 0 then asciiToLowerCase c else asciiToUpperCase c]
  | .title => [asciiToUpperCase c]
  | .titleUnder => (if wordIdx ≠ 0 then [ch '_'] else []) ++ [asciiToUpperCase c]
  -- without a `break`, the next case is done as well
  | .altCamel =>
    [if lastWasAcronym || wordIdx == 0 then asciiToLowerCase c else asciiToUpperCase c,
      if lastWasAcronym then asciiToLowerCase c else asciiToUpperCase c]
  | .altTitle => [if lastWasAcronym then asciiToLowerCase c else asciiToUpperCase c]

/-- `normalize_internal_char`. -/
def normalizeInternalChar (c : UInt8) (outStyle : IdentifierStyle) (inAcronym : Bool) : UInt8 :=
  match outStyle with
  | .intentVerb | .intentNoun | .under => asciiToLowerCase c
  | .camel | .title | .titleUnder | .altCamel | .altTitle =>
    if inAcronym then asciiToUpperCase c else asciiToLowerCase c

/-- `skip_to_alphanumeric`. -/
def skipToAlphanumeric (s : Text) : Text := s.dropWhile isAsciiAlphanumeric

/-- The end of an acronym, which is in front of its last capital unless nothing is behind it. -/
def skipAcronym : Text → Text
  | [] => []
  | [_] => []
  | c :: d :: s => if isAsciiUpper d then skipAcronym (d :: s) else c :: d :: s

/-- "Now read and write the rest of the current word": what is written, and where the cursor is
then. -/
def restOfWord (inStyle outStyle : IdentifierStyle) (inAcronym : Bool) (s : Text) : Text × Text :=
  match inStyle with
  | .intentVerb | .intentNoun | .under =>
    ((s.takeWhile isAsciiAlphanumeric).map (normalizeInternalChar · outStyle inAcronym),
      s.dropWhile isAsciiAlphanumeric)
  | .title | .camel =>
    if inAcronym then ([], skipAcronym s)
    -- `word_is_capitalized` is false all the time
    else ((s.takeWhile (isAsciiUpper · == false)).map (normalizeInternalChar · outStyle inAcronym),
      s.dropWhile (isAsciiUpper · == false))
  | .titleUnder | .altCamel | .altTitle =>
    ((s.take 1).map fun c => if inAcronym then asciiToUpperCase c else asciiToLowerCase c, s)

theorem length_skipAcronym_le (s : Text) : (skipAcronym s).length ≤ s.length := by
  fun_induction skipAcronym s with
  | case1 => exact le_rfl
  | case2 c => exact Nat.zero_le _
  | case3 c d s _ ih => exact ih.trans (Nat.le_succ _)
  | case4 c d s _ => exact le_rfl

theorem length_restOfWord_le (a b : IdentifierStyle) (inAcronym : Bool) (s : Text) :
    (restOfWord a b inAcronym s).2.length ≤ s.length := by
  have hdrop : ∀ q : UInt8 → Bool, (s.dropWhile q).length ≤ s.length := fun q =>
    (List.dropWhile_suffix q).length_le
  unfold restOfWord
  split
  · exact hdrop _
  · exact hdrop _
  · exact hdrop _
  · split_ifs
    · exact length_skipAcronym_le s
    · exact hdrop _
  · split_ifs
    · exact length_skipAcronym_le s
    · exact hdrop _
  all_goals exact le_rfl

/-- The loop over the words. -/
def normalizeWords (inStyle outStyle : IdentifierStyle) (wordIdx : UInt32) (inAcronym : Bool) :
    Text → Text
  | [] => []
  | [c] => normalizeBoundaryChar c outStyle wordIdx inAcronym
  | c :: d :: s =>
    let nextInAcronym := isAsciiUpper c && isAsciiUpper d
    let word := restOfWord inStyle outStyle nextInAcronym (d :: s)
    normalizeBoundaryChar c outStyle wordIdx inAcronym ++ word.1 ++
      normalizeWords inStyle outStyle (wordIdx + 1) nextInAcronym word.2
termination_by s => s.length
decreasing_by exact Nat.lt_succ_of_le (length_restOfWord_le _ _ _ _)

/-- `normalize_identifier`. -/
def normalizeIdentifier (txt : Text) (inStyle outStyle : IdentifierStyle) : Text :=
  let p := skipToAlphanumeric txt
  if p = [] then [] else normalizeWords inStyle outStyle 0 false p

/-! ### Words -/

/-- The styles with a separator between the words, which have no capitals inside. -/
inductive SeparatedStyle where
  | intentNoun
  | intentVerb
  | under
  deriving DecidableEq, Repr

namespace SeparatedStyle

/-- As an `identifier_style`. -/
def style : SeparatedStyle → IdentifierStyle
  | .intentNoun => .intentNoun
  | .intentVerb => .intentVerb
  | .under => .under

/-- What is between the words. -/
def separator : SeparatedStyle → UInt8
  | .intentNoun | .intentVerb => ch ' '
  | .under => ch '_'

/-- The words in this style. -/
def render (a : SeparatedStyle) (words : List Text) : Text :=
  let joined := [a.separator].intercalate words
  match a with
  | .intentVerb => joined.modifyHead asciiToUpperCase
  | .intentNoun | .under => joined

/-- What is written for the words behind the first one. -/
def respaced (a b : SeparatedStyle) : UInt32 → List Text → Text
  | _, [] => []
  | idx, w :: ws =>
    (if idx ≠ 0 then [b.separator] else []) ++ a.separator :: w ++ respaced a b (idx + 1) ws

end SeparatedStyle

/-- A lower-case word. -/
structure IsLowerWord (w : Text) : Prop where
  ne_nil : w ≠ []
  lower : ∀ c ∈ w, isAsciiLower c = true

theorem IsLowerWord.of_all {w : Text} (hne : w ≠ []) (h : w.all isAsciiLower = true) :
    IsLowerWord w :=
  ⟨hne, List.all_eq_true.mp h⟩

section Words

open SeparatedStyle

variable {a b : SeparatedStyle} {w : Text} {ws : List Text} {c : UInt8}

theorem toNat_of_isAsciiLower (h : isAsciiLower c = true) : 97 ≤ c.toNat ∧ c.toNat ≤ 122 := by
  rw [isAsciiLower, Bool.and_eq_true, decide_eq_true_iff, decide_eq_true_iff] at h
  exact h

theorem isAsciiAlphanumeric_of_isAsciiLower (h : isAsciiLower c = true) :
    isAsciiAlphanumeric c = true := by
  obtain ⟨hlo, hhi⟩ := toNat_of_isAsciiLower h
  have hA : ch 'A' ≤ c := UInt8.le_trans (b := ch 'a') (by decide) hlo
  simp only [isAsciiAlphanumeric, Bool.or_eq_true, Bool.and_eq_true, decide_eq_true_iff]
  exact .inr ⟨⟨hA, hhi⟩, .inl hlo⟩

theorem asciiToLowerCase_of_isAsciiLower (h : isAsciiLower c = true) : asciiToLowerCase c = c := by
  refine if_neg fun hupper => ?_
  rw [isAsciiUpper, Bool.and_eq_true, decide_eq_true_iff, decide_eq_true_iff] at hupper
  have hZ : c.toNat ≤ 90 := hupper.2
  have hlo := (toNat_of_isAsciiLower h).1
  omega

theorem isAsciiAlphanumeric_asciiToUpperCase (h : isAsciiLower c = true) :
    isAsciiAlphanumeric (asciiToUpperCase c) = true := by
  obtain ⟨hlo, hhi⟩ := toNat_of_isAsciiLower h
  have hle : (32 : UInt8) ≤ c := UInt8.le_trans (b := ch 'a') (by decide) hlo
  have hnat : (c - 32).toNat = c.toNat - 32 := UInt8.toNat_sub_of_le _ _ hle
  have hA : ch 'A' ≤ c - 32 := by
    show 65 ≤ (c - 32).toNat
    omega
  have hZ : c - 32 ≤ ch 'Z' := by
    show (c - 32).toNat ≤ 90
    omega
  have hz : c - 32 ≤ ch 'z' := UInt8.le_trans hZ (by decide)
  rw [asciiToUpperCase, if_pos h]
  simp only [isAsciiAlphanumeric, Bool.or_eq_true, Bool.and_eq_true, decide_eq_true_iff]
  exact .inr ⟨⟨hA, hz⟩, .inr hZ⟩

theorem isAsciiAlphanumeric_separator (a : SeparatedStyle) :
    isAsciiAlphanumeric a.separator = false := by
  cases a <;> decide

/-- The words behind the first one, with their separators. -/
theorem intercalate_cons (x : UInt8) (w : Text) (ws : List Text) :
    [x].intercalate (w :: ws) = w ++ ws.flatMap (x :: ·) := by
  induction ws generalizing w with
  | nil => rw [List.intercalate_singleton, List.flatMap_nil, List.append_nil]
  | cons v ws ih =>
    rw [List.intercalate_cons_cons, ih, List.flatMap_cons, List.append_assoc]
    rfl

/-- A rendered list begins with its first word, of whose characters one may be a capital. -/
theorem render_cons (b : SeparatedStyle) (hw : IsLowerWord w) (ws : List Text) :
    ∃ v, v ≠ [] ∧ (∀ c ∈ v, isAsciiAlphanumeric c = true) ∧
      b.render (w :: ws) = v ++ ws.flatMap (b.separator :: ·) := by
  have halnum : ∀ c ∈ w, isAsciiAlphanumeric c = true := fun c hc =>
    isAsciiAlphanumeric_of_isAsciiLower (hw.lower c hc)
  cases b with
  | intentNoun => exact ⟨w, hw.ne_nil, halnum, intercalate_cons _ w ws⟩
  | under => exact ⟨w, hw.ne_nil, halnum, intercalate_cons _ w ws⟩
  | intentVerb =>
    obtain ⟨c, s, rfl⟩ := List.exists_cons_of_ne_nil hw.ne_nil
    refine ⟨asciiToUpperCase c :: s, List.cons_ne_nil _ _, ?_, ?_⟩
    · refine List.forall_mem_cons.mpr ⟨?_, (List.forall_mem_cons.mp halnum).2⟩
      exact isAsciiAlphanumeric_asciiToUpperCase (hw.lower c List.mem_cons_self)
    · rw [render, intercalate_cons]
      rfl

/-- The first word is skipped. -/
theorem skipToAlphanumeric_append (hw : ∀ c ∈ w, isAsciiAlphanumeric c = true) (ws : List Text) :
    skipToAlphanumeric (w ++ ws.flatMap (a.separator :: ·)) = ws.flatMap (a.separator :: ·) := by
  rw [skipToAlphanumeric, List.dropWhile_append_of_pos hw]
  cases ws with
  | nil => rfl
  | cons v ws =>
    rw [List.flatMap_cons, List.cons_append, List.dropWhile_cons_of_neg]
    rw [isAsciiAlphanumeric_separator]
    exact Bool.false_ne_true

/-- A separator is written as the first character of a word. -/
theorem normalizeBoundaryChar_separator (a b : SeparatedStyle) (idx : UInt32) (acronym : Bool) :
    normalizeBoundaryChar a.separator b.style idx acronym =
      (if idx ≠ 0 then [b.separator] else []) ++ [a.separator] := by
  have hlower : asciiToLowerCase a.separator = a.separator := by cases a <;> decide
  have hupper : asciiToUpperCase a.separator = a.separator := by cases a <;> decide
  cases b with
  | intentNoun | under =>
    rw [style, normalizeBoundaryChar, hlower]
    rfl
  | intentVerb =>
    rw [style, normalizeBoundaryChar, hlower, hupper]
    split_ifs <;> rfl

theorem normalizeInternalChar_of_isAsciiLower (b : SeparatedStyle) (acronym : Bool)
    (h : isAsciiLower c = true) : normalizeInternalChar c b.style acronym = c := by
  have heq : normalizeInternalChar c b.style acronym = asciiToLowerCase c := by cases b <;> rfl
  rw [heq, asciiToLowerCase_of_isAsciiLower h]

/-- A word is written as it is. -/
theorem restOfWord_word (a b : SeparatedStyle) (hw : IsLowerWord w) (ws : List Text)
    (acronym : Bool) :
    restOfWord a.style b.style acronym (w ++ ws.flatMap (a.separator :: ·)) =
      (w, ws.flatMap (a.separator :: ·)) := by
  have hcase : ∀ s, restOfWord a.style b.style acronym s =
      ((s.takeWhile isAsciiAlphanumeric).map (normalizeInternalChar · b.style acronym),
        skipToAlphanumeric s) := fun s => by cases a <;> rfl
  have halnum : ∀ c ∈ w, isAsciiAlphanumeric c = true := fun c hc =>
    isAsciiAlphanumeric_of_isAsciiLower (hw.lower c hc)
  have hsep : (ws.flatMap (a.separator :: ·)).takeWhile isAsciiAlphanumeric = [] := by
    cases ws with
    | nil => rfl
    | cons v ws =>
      rw [List.flatMap_cons, List.cons_append, List.takeWhile_cons_of_neg]
      rw [isAsciiAlphanumeric_separator]
      exact Bool.false_ne_true
  have hmap : w.map (normalizeInternalChar · b.style acronym) = w :=
    (List.map_congr_left fun c hc =>
      normalizeInternalChar_of_isAsciiLower b acronym (hw.lower c hc)).trans (List.map_id' w)
  rw [hcase, skipToAlphanumeric_append halnum, List.takeWhile_append_of_pos halnum, hsep,
    List.append_nil, hmap]

/-- **The loop** comes to every separator as the beginning of a word. -/
theorem normalizeWords_eq (a b : SeparatedStyle) (hws : ∀ w ∈ ws, IsLowerWord w) (idx : UInt32)
    (acronym : Bool) :
    normalizeWords a.style b.style idx acronym (ws.flatMap (a.separator :: ·)) =
      respaced a b idx ws := by
  induction ws generalizing idx acronym with
  | nil =>
    rw [List.flatMap_nil, normalizeWords]
    rfl
  | cons w ws ih =>
    obtain ⟨hw, htail⟩ := List.forall_mem_cons.mp hws
    have hrest := restOfWord_word a b hw ws
    obtain ⟨c, s, rfl⟩ := List.exists_cons_of_ne_nil hw.ne_nil
    rw [List.cons_append] at hrest
    rw [List.flatMap_cons, List.cons_append, List.cons_append, normalizeWords]
    simp only [hrest]
    rw [ih htail, normalizeBoundaryChar_separator, respaced]
    simp only [List.append_assoc, List.cons_append, List.nil_append]

/-- What `normalize_identifier` does: the first word is lost, and the separators are doubled. -/
theorem normalizeIdentifier_render (a b : SeparatedStyle) (hw : IsLowerWord w)
    (hws : ∀ w ∈ ws, IsLowerWord w) :
    normalizeIdentifier (a.render (w :: ws)) a.style b.style = respaced a b 0 ws := by
  obtain ⟨v, -, halnum, hrender⟩ := render_cons a hw ws
  rw [hrender, normalizeIdentifier, skipToAlphanumeric_append halnum]
  by_cases hnil : ws.flatMap (a.separator :: ·) = []
  · cases ws with
    | nil => rfl
    | cons w ws => cases hnil
  · rw [if_neg hnil, normalizeWords_eq a b hws]

end Words

/-- `normalize_identifier` converts these words from one style to the other. -/
def Converts (words : List Text) (a b : SeparatedStyle) : Prop :=
  normalizeIdentifier (a.render words) a.style b.style = b.render words

/-- **No list of words is converted.** The result is empty or begins with a separator. -/
theorem not_converts (words : List Text) (hne : words ≠ []) (hwords : ∀ w ∈ words, IsLowerWord w)
    (a b : SeparatedStyle) : ¬ Converts words a b := by
  obtain ⟨w, ws, rfl⟩ := List.exists_cons_of_ne_nil hne
  obtain ⟨hw, hws⟩ := List.forall_mem_cons.mp hwords
  obtain ⟨v, hv, halnum, hrender⟩ := render_cons b hw ws
  obtain ⟨c, v, rfl⟩ := List.exists_cons_of_ne_nil hv
  rw [Converts, normalizeIdentifier_render a b hw hws, hrender]
  intro h
  cases ws with
  | nil => cases h
  | cons w ws =>
    obtain rfl := (List.cons.inj h).1
    have hc := halnum _ List.mem_cons_self
    rw [isAsciiAlphanumeric_separator] at hc
    cases hc

/-- Two words, from one style into another. -/
theorem not_converts_verb :
    ¬ Converts [bytes ['u', 's', 'e'], bytes ['d', 'n', 's']] .intentVerb .under :=
  not_converts _ (List.cons_ne_nil _ _)
    (List.forall_mem_cons.mpr ⟨.of_all (by decide) (by decide),
      List.forall_mem_singleton.mpr (.of_all (by decide) (by decide))⟩) _ _

/-- The identifier of the test `into_intent_noun` becomes `" first  dns  setting"`. -/
theorem not_converts_setting :
    ¬ Converts [bytes ['u', 's', 'e'], bytes ['f', 'i', 'r', 's', 't'], bytes ['d', 'n', 's'],
      bytes ['s', 'e', 't', 't', 'i', 'n', 'g']] .intentNoun .intentNoun := by
  have huse : IsLowerWord (bytes ['u', 's', 'e']) := .of_all (by decide) (by decide)
  have hfirst : IsLowerWord (bytes ['f', 'i', 'r', 's', 't']) :=
    .of_all (by decide) (by decide)
  have hdns : IsLowerWord (bytes ['d', 'n', 's']) := .of_all (by decide) (by decide)
  have hsetting : IsLowerWord (bytes ['s', 'e', 't', 't', 'i', 'n', 'g']) :=
    .of_all (by decide) (by decide)
  rw [Converts, normalizeIdentifier_render _ _ huse (List.forall_mem_cons.mpr ⟨hfirst,
    List.forall_mem_cons.mpr ⟨hdns, List.forall_mem_singleton.mpr hsetting⟩⟩)]
  decide

end Intent.Old
