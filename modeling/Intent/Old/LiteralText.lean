import Intent.Old.LooseNumber

/-!
# Literals by their text

The grammar of numeric literals is not ambiguous: no two literals have the same text
(`Literal.text_injective`). The kind of a literal is known from the characters in it: the letter of
a base, a radix, the mark of an exponent (`Magnitude.kind_eq`). Its groups are then found one by
one, since what is behind a group ends its digits.
-/

namespace Intent.Old

/-! ### Formats -/

/-- The format of a literal. -/
def Magnitude.format : Magnitude → NumericFormats
  | decimal _ _ => .decimal
  | hex _ _ => .hex
  | binary _ _ => .binary
  | octal _ _ _ => .octal
  | fraction _ _ _ => .floatingPointOnly
  | scientific _ _ => .floatingPointOnly

/-- The format of a literal. -/
def Literal.format (lit : Literal) : NumericFormats := lit.magnitude.format

/-! ### Kinds -/

/-- The kinds of literals. -/
inductive LiteralKind where
  | decimal | hex | binary | octal | fraction | scientific
  deriving DecidableEq

/-- The kind of a magnitude. -/
def Magnitude.kind : Magnitude → LiteralKind
  | decimal _ _ => .decimal
  | hex _ _ => .hex
  | binary _ _ => .binary
  | octal _ _ _ => .octal
  | fraction _ _ _ => .fraction
  | scientific _ _ => .scientific

/-- The kind of a text, if it is one of a magnitude. -/
def kindOf (t : Text) : LiteralKind :=
  if ch 'x' ∈ t ∨ ch 'X' ∈ t then .hex
  else if ch 'b' ∈ t ∨ ch 'B' ∈ t then .binary
  else if ch '.' ∈ t then .fraction
  else if ch 'e' ∈ t ∨ ch 'E' ∈ t then .scientific
  else if t.head? = some (ch '0') ∧ 1 < t.length ∧
    t.all (fun c => (digitBelow 8 c).isSome || c == ch '_') = true then .octal
  else .decimal

section Kinds

variable {w : Text} {c : UInt8}

/-- A decimal digit or an underscore is none of these characters. -/
theorem not_mem_run (hw : IsRun (digitBelow 10) w)
    (hc : (digitBelow 10 c).isSome = false ∧ c ≠ ch '_') : c ∉ w := by
  intro hmem
  rcases hw c hmem with h | h
  · rw [hc.1] at h
    cases h
  · exact hc.2 h

/-- A character that is not in a decimal literal is not in an exponent. -/
theorem Exponent.not_mem_text (e : Exponent)
    (hc : (digitBelow 10 c).isSome = false ∧ c ≠ ch '_') (hmark : c ≠ ch 'e' ∧ c ≠ ch 'E')
    (hsign : c ≠ ch '+' ∧ c ≠ ch '-') : c ∉ e.text := by
  rw [Exponent.text, List.mem_cons, List.mem_append]
  rintro (h | h | h)
  · cases hupper : e.upper with
    | true =>
      rw [hupper, if_pos rfl] at h
      exact hmark.2 h
    | false =>
      rw [hupper, if_neg Bool.false_ne_true] at h
      exact hmark.1 h
  · cases hs : e.sign with
    | none =>
      rw [hs] at h
      cases h
    | plus =>
      rw [hs] at h
      exact hsign.1 (List.mem_singleton.mp h)
    | minus =>
      rw [hs] at h
      exact hsign.2 (List.mem_singleton.mp h)
  · exact not_mem_run e.digits.all hc h

theorem elim_not_mem_text (exponent : Option Exponent)
    (hc : (digitBelow 10 c).isSome = false ∧ c ≠ ch '_') (hmark : c ≠ ch 'e' ∧ c ≠ ch 'E')
    (hsign : c ≠ ch '+' ∧ c ≠ ch '-') : c ∉ exponent.elim [] Exponent.text := by
  cases exponent with
  | none => exact List.not_mem_nil
  | some e => exact e.not_mem_text hc hmark hsign

theorem elim_run (whole : Option DecimalGroup) :
    IsRun (digitBelow 10) (whole.elim [] DigitGroup.text) := by
  cases whole with
  | none => exact List.forall_mem_nil _
  | some g => exact g.all

/-- The letters of a base. -/
def baseLetters : List UInt8 := [ch 'x', ch 'X', ch 'b', ch 'B']

/-- The letter of a base is no part of a floating-point number. -/
theorem baseLetters_not_floating (hc : c ∈ baseLetters) :
    ((digitBelow 10 c).isSome = false ∧ c ≠ ch '_') ∧ (c ≠ ch 'e' ∧ c ≠ ch 'E') ∧
      (c ≠ ch '+' ∧ c ≠ ch '-') ∧ c ≠ ch '.' := by
  have hall : baseLetters.all (fun c => ((digitBelow 10 c).isSome = false ∧ c ≠ ch '_') ∧
      (c ≠ ch 'e' ∧ c ≠ ch 'E') ∧ (c ≠ ch '+' ∧ c ≠ ch '-') ∧ c ≠ ch '.') = true := by decide
  exact of_decide_eq_true (List.all_eq_true.mp hall c hc)

/-- A floating-point literal does not have the letter of a base. -/
theorem Magnitude.not_mem_of_floating {mag : Magnitude}
    (h : mag.format = .floatingPointOnly) (hc : c ∈ baseLetters) : c ∉ mag.text := by
  obtain ⟨hnot, hmark, hsign, hdot⟩ := baseLetters_not_floating hc
  cases mag with
  | decimal g hg =>
    have : NumericFormats.decimal ≠ .floatingPointOnly := by decide
    exact absurd h this
  | hex upper g =>
    have : NumericFormats.hex ≠ .floatingPointOnly := by decide
    exact absurd h this
  | binary upper g =>
    have : NumericFormats.binary ≠ .floatingPointOnly := by decide
    exact absurd h this
  | octal g hzero hlong =>
    have : NumericFormats.octal ≠ .floatingPointOnly := by decide
    exact absurd h this
  | fraction whole g exponent =>
    rw [Magnitude.text, List.mem_append, List.mem_cons, List.mem_append]
    rintro (hmem | hmem | hmem | hmem)
    · exact not_mem_run (elim_run whole) hnot hmem
    · exact hdot hmem
    · exact not_mem_run g.all hnot hmem
    · exact elim_not_mem_text exponent hnot hmark hsign hmem
  | scientific whole e =>
    rw [Magnitude.text, List.mem_append]
    rintro (hmem | hmem)
    · exact not_mem_run whole.all hnot hmem
    · exact e.not_mem_text hnot hmark hsign hmem

/-- A run of decimal digits has no kind but those of the whole numbers. -/
theorem kindOf_run (hw : IsRun (digitBelow 10) w) :
    kindOf w = if w.head? = some (ch '0') ∧ 1 < w.length ∧
      w.all (fun c => (digitBelow 8 c).isSome || c == ch '_') = true then .octal
    else .decimal := by
  have hnot : ∀ c, (digitBelow 10 c).isSome = false ∧ c ≠ ch '_' → c ∉ w := fun c hc =>
    not_mem_run hw hc
  rw [kindOf, if_neg (not_or.mpr ⟨hnot _ (by decide), hnot _ (by decide)⟩),
    if_neg (not_or.mpr ⟨hnot _ (by decide), hnot _ (by decide)⟩), if_neg (hnot _ (by decide)),
    if_neg (not_or.mpr ⟨hnot _ (by decide), hnot _ (by decide)⟩)]

/-- A letter in one of its cases. -/
theorem letter_mem (upper : Bool) {a b : UInt8} (t u : Text) :
    b ∈ (if upper then a else b) :: t ∨ a ∈ (if upper then a else b) :: u := by
  cases upper with
  | true => exact .inr List.mem_cons_self
  | false => exact .inl List.mem_cons_self

/-- **Kinds.** The text of a magnitude has its kind. -/
theorem Magnitude.kind_eq (mag : Magnitude) : kindOf mag.text = mag.kind := by
  cases mag with
  | decimal g hg =>
    rw [Magnitude.text, kindOf_run g.all]
    -- behind a leading `0` is a digit that is not octal, or nothing
    refine if_neg ?_
    rintro ⟨hzero, hlong, hall⟩
    rcases hg hzero with hone | ⟨c, hc, hnone, hne⟩
    · rw [hone] at hlong
      exact absurd hlong (by decide)
    · rcases all_digits hall c hc with h | h
      · rw [hnone] at h
        cases h
      · exact hne h
  | hex upper g =>
    exact if_pos ((letter_mem upper _ _).imp (List.mem_cons_of_mem _) (List.mem_cons_of_mem _))
  | binary upper g =>
    have hrun : IsRun (digitBelow 10) g.text := (g.decimal (by decide)).1
    have hnot : ∀ c, ((digitBelow 10 c).isSome = false ∧ c ≠ ch '_') ∧ c ≠ ch '0' ∧
        c ≠ ch 'b' ∧ c ≠ ch 'B' → c ∉ (Magnitude.binary upper g).text := by
      rintro c ⟨hc, hzero, hlower, hupper⟩ hmem
      rcases List.mem_cons.mp hmem with h | h
      · exact hzero h
      rcases List.mem_cons.mp h with h | h
      · cases upper with
        | true => exact hupper h
        | false => exact hlower h
      · exact not_mem_run hrun hc h
    rw [kindOf, if_neg (not_or.mpr ⟨hnot _ (by decide), hnot _ (by decide)⟩)]
    exact if_pos ((letter_mem upper _ _).imp (List.mem_cons_of_mem _) (List.mem_cons_of_mem _))
  | octal g hzero hlong =>
    rw [Magnitude.text, kindOf_run (g.decimal (by decide)).1]
    have hall : g.text.all (fun c => (digitBelow 8 c).isSome || c == ch '_') = true := by
      simpa using g.all
    exact if_pos ⟨hzero, hlong, hall⟩
  | fraction whole g exponent =>
    have hnot : ∀ c ∈ baseLetters, c ∉ (Magnitude.fraction whole g exponent).text := fun c hc =>
      Magnitude.not_mem_of_floating rfl hc
    rw [kindOf, if_neg (not_or.mpr ⟨hnot _ (by decide), hnot _ (by decide)⟩),
      if_neg (not_or.mpr ⟨hnot _ (by decide), hnot _ (by decide)⟩)]
    exact if_pos (List.mem_append_right _ List.mem_cons_self)
  | scientific whole e =>
    have hnot : ∀ c ∈ baseLetters, c ∉ (Magnitude.scientific whole e).text := fun c hc =>
      Magnitude.not_mem_of_floating rfl hc
    -- only the mark of the exponent is left to tell the kind
    have hdot : ch '.' ∉ (Magnitude.scientific whole e).text := by
      rw [Magnitude.text, List.mem_append]
      rintro (h | h)
      · exact not_mem_run whole.all (by decide) h
      · exact e.not_mem_text (by decide) (by decide) (by decide) h
    rw [kindOf, if_neg (not_or.mpr ⟨hnot _ (by decide), hnot _ (by decide)⟩),
      if_neg (not_or.mpr ⟨hnot _ (by decide), hnot _ (by decide)⟩), if_neg hdot]
    exact if_pos ((letter_mem e.upper _ _).imp (List.mem_append_right _)
      (List.mem_append_right _))

end Kinds

/-! ### Unambiguous texts -/

section Unambiguous

variable {digit : UInt8 → Option ℕ} {w w' s s' : Text}

/-- What is behind a run determines where it ends. -/
theorem run_append_inj (hw : IsRun digit w) (hw' : IsRun digit w') (hs : EndsDigits digit s)
    (hs' : EndsDigits digit s') (h : w ++ s = w' ++ s') : w = w' ∧ s = s' := by
  have hlength : w.length = w'.length := by
    have hrun := digitRun_of_ends hw hs
    rw [h, digitRun_of_ends hw' hs'] at hrun
    exact (congrArg Prod.snd hrun).symm
  exact List.append_inj h hlength

theorem DigitGroup.text_injective : Function.Injective (@DigitGroup.text digit) := by
  rintro ⟨w, hfirst, hlast, hall⟩ ⟨w', hfirst', hlast', hall'⟩ rfl
  rfl

/-- A group is known from its text and what is behind it. -/
theorem DigitGroup.text_append_inj {g g' : DigitGroup digit} (hs : EndsDigits digit s)
    (hs' : EndsDigits digit s') (h : g.text ++ s = g'.text ++ s') : g = g' ∧ s = s' := by
  obtain ⟨htext, hrest⟩ := run_append_inj g.all g'.all hs hs' h
  exact ⟨DigitGroup.text_injective htext, hrest⟩

/-- A sign is known from its text and what is behind it. -/
theorem Sign.text_append_inj {sign sign' : Sign}
    (hs : s[0]? ≠ some (ch '+') ∧ s[0]? ≠ some (ch '-'))
    (hs' : s'[0]? ≠ some (ch '+') ∧ s'[0]? ≠ some (ch '-'))
    (h : sign.text ++ s = sign'.text ++ s') : sign = sign' ∧ s = s' := by
  obtain ⟨hplus, hminus⟩ := sign.first_iff hs.1 hs.2
  obtain ⟨hplus', hminus'⟩ := sign'.first_iff hs'.1 hs'.2
  rw [h] at hplus hminus
  have hsign : sign = sign' := by
    have hp : sign = .plus ↔ sign' = .plus := hplus.symm.trans hplus'
    have hm : sign = .minus ↔ sign' = .minus := hminus.symm.trans hminus'
    cases sign with
    | plus => exact (hp.mp rfl).symm
    | minus => exact (hm.mp rfl).symm
    | none =>
      cases sign' with
      | none => rfl
      | plus => exact hp.mpr rfl
      | minus => exact hm.mpr rfl
  subst hsign
  exact ⟨rfl, List.append_cancel_left h⟩

theorem DigitGroup.ne_nil (g : DigitGroup digit) : g.text ≠ [] := by
  have hne := g.text_ne_nil []
  rwa [List.append_nil] at hne

/-- A group of digits does not begin with a sign. -/
theorem DigitGroup.not_sign (g : DecimalGroup) :
    g.text[0]? ≠ some (ch '+') ∧ g.text[0]? ≠ some (ch '-') := by
  have hne : ∀ {c}, isdigit c = false → g.text[0]? ≠ some c := fun {c} hc => by
    rw [← List.append_nil g.text]
    exact g.first_ne hc
  exact ⟨hne (by decide), hne (by decide)⟩

/-- The case of a letter is known from it. -/
theorem upper_of_letter {a b : UInt8} (hne : a ≠ b) {upper upper' : Bool}
    (h : (if upper then a else b) = if upper' then a else b) : upper = upper' := by
  cases upper with
  | true =>
    cases upper' with
    | true => rfl
    | false => exact absurd h hne
  | false =>
    cases upper' with
    | true => exact absurd h hne.symm
    | false => rfl

/-- Behind a `0`, a letter and a group. -/
theorem prefixed_inj {a b : UInt8} (hne : a ≠ b) {upper upper' : Bool} {g g' : DigitGroup digit}
    (h : ch '0' :: (if upper then a else b) :: g.text =
      ch '0' :: (if upper' then a else b) :: g'.text) : upper = upper' ∧ g = g' := by
  obtain ⟨-, htail⟩ := List.cons.inj h
  obtain ⟨hletter, htext⟩ := List.cons.inj htail
  exact ⟨upper_of_letter hne hletter, DigitGroup.text_injective htext⟩

theorem Exponent.text_injective : Function.Injective Exponent.text := by
  rintro ⟨upper, sign, g⟩ ⟨upper', sign', g'⟩ h
  obtain ⟨hmark, hrest⟩ := List.cons.inj h
  obtain ⟨rfl, htext⟩ := Sign.text_append_inj g.not_sign g'.not_sign hrest
  obtain rfl := DigitGroup.text_injective htext
  obtain rfl := upper_of_letter (by decide) hmark
  rfl

/-- An exponent ends the digits before it. -/
theorem Exponent.endsDigits (e : Exponent) : EndsDigits (digitBelow 10) e.text := by
  intro c hc
  obtain rfl := Option.some.inj hc
  cases e.upper with
  | true => exact ⟨by decide, by decide⟩
  | false => exact ⟨by decide, by decide⟩

theorem elim_endsDigits (exponent : Option Exponent) :
    EndsDigits (digitBelow 10) (exponent.elim [] Exponent.text) := by
  cases exponent with
  | none => exact endsDigits_nil _
  | some e => exact e.endsDigits

theorem elim_text_injective :
    Function.Injective fun exponent : Option Exponent => exponent.elim [] Exponent.text := by
  intro e e' h
  cases e with
  | none =>
    cases e' with
    | none => rfl
    | some e' => cases h
  | some e =>
    cases e' with
    | none => cases h
    | some e' => rw [Exponent.text_injective h]

/-- A whole part is known from its text: one that is there is not empty. -/
theorem elim_group_injective :
    Function.Injective fun whole : Option DecimalGroup => whole.elim [] DigitGroup.text := by
  intro g g' h
  cases g with
  | none =>
    cases g' with
    | none => rfl
    | some g' => exact absurd h.symm g'.ne_nil
  | some g =>
    cases g' with
    | none => exact absurd h g.ne_nil
    | some g' => rw [DigitGroup.text_injective h]

theorem endsDigits_radix (t : Text) : EndsDigits (digitBelow 10) (ch '.' :: t) := by
  rintro _ ⟨⟩
  exact ⟨by decide, by decide⟩

/-- **No two magnitudes have the same text.** -/
theorem Magnitude.text_injective : Function.Injective Magnitude.text := by
  intro a b h
  have hkind : a.kind = b.kind := by rw [← a.kind_eq, h, b.kind_eq]
  cases a with
  | decimal g hg =>
    cases b with
    | decimal g' hg' =>
      obtain rfl := DigitGroup.text_injective h
      rfl
    | _ => cases hkind
  | hex upper g =>
    cases b with
    | hex upper' g' =>
      obtain ⟨rfl, rfl⟩ := prefixed_inj (by decide) h
      rfl
    | _ => cases hkind
  | binary upper g =>
    cases b with
    | binary upper' g' =>
      obtain ⟨rfl, rfl⟩ := prefixed_inj (by decide) h
      rfl
    | _ => cases hkind
  | octal g hzero hlong =>
    cases b with
    | octal g' hzero' hlong' =>
      obtain rfl := DigitGroup.text_injective h
      rfl
    | _ => cases hkind
  | fraction whole g exponent =>
    cases b with
    | fraction whole' g' exponent' =>
      obtain ⟨hwhole, htail⟩ := run_append_inj (elim_run whole) (elim_run whole')
        (endsDigits_radix _) (endsDigits_radix _) h
      obtain ⟨rfl, hexp⟩ := DigitGroup.text_append_inj (elim_endsDigits exponent)
        (elim_endsDigits exponent') (List.cons.inj htail).2
      rw [elim_group_injective hwhole, elim_text_injective hexp]
    | _ => cases hkind
  | scientific whole e =>
    cases b with
    | scientific whole' e' =>
      obtain ⟨rfl, hexp⟩ := DigitGroup.text_append_inj e.endsDigits e'.endsDigits h
      rw [Exponent.text_injective hexp]
    | _ => cases hkind

/-- A magnitude does not begin with a sign. -/
theorem Magnitude.not_sign (mag : Magnitude) :
    mag.text[0]? ≠ some (ch '+') ∧ mag.text[0]? ≠ some (ch '-') := by
  rcases mag.first_cases with ⟨g, e, rfl⟩ | ⟨c, hc, hdigit⟩
  · exact ⟨fun h => absurd (Option.some.inj h : ch '.' = ch '+') (by decide),
      fun h => absurd (Option.some.inj h : ch '.' = ch '-') (by decide)⟩
  · rw [hc]
    refine ⟨?_, ?_⟩
    · rintro ⟨⟩
      cases hdigit
    · rintro ⟨⟩
      cases hdigit

theorem Literal.ne_nil (lit : Literal) : lit.text ≠ [] := by
  refine List.append_ne_nil_of_right_ne_nil _ fun hnil => ?_
  rcases lit.magnitude.first_cases with ⟨g, e, hmag⟩ | ⟨c, hc, -⟩
  · rw [hmag] at hnil
    cases hnil
  · rw [hnil] at hc
    cases hc

/-- **The grammar is unambiguous.** No two literals have the same text. -/
theorem Literal.text_injective : Function.Injective Literal.text := by
  rintro ⟨sign, mag⟩ ⟨sign', mag'⟩ h
  obtain ⟨rfl, htext⟩ := Sign.text_append_inj mag.not_sign mag'.not_sign h
  rw [Magnitude.text_injective htext]

end Unambiguous

end Intent.Old
