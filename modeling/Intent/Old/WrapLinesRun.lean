import Intent.Old.WrapLinesRound

/-!
# Runs of `wrap_lines`

The rounds of the outer loop of `wrap_lines` are a run, and `LineStart` says what a state is at the
beginning of a line. If every line of a call has room, and the counter does not overflow at a line
break (`Regular`), then each round moves on, so that the run ends (`exists_ended`), and an invariant
of the rounds is an invariant of the run (`Reached.invariant`).

A line without room is begun again and again (`Stuck.round`), so that a call that returns has had
room in every line (`Reached.hasRoom`).
-/

namespace Intent.Old

namespace Wrapping

/-- A step of the outer loop. -/
def Step (w : Wrapping) (s : WrapState) (_ : Unit) (s' : WrapState) : Prop :=
  s.p < w.text.length ∧ s' = w.wrapRound s

/-- The states of the outer loop in a call. -/
def Reached (w : Wrapping) (s : WrapState) : Prop :=
  Reaches w.Step (fun _ _ => True) initial s

/-- A state of the outer loop in which a line is scanned. -/
def Scans (w : Wrapping) (s : WrapState) : Prop := s.p < w.text.length ∧ ¬w.Shortcut s

/-- A call in which every line that is scanned has room, and the counter does not overflow at a line
break. -/
structure Regular (w : Wrapping) : Prop where
  width : 10 ≤ w.width
  room : ∀ s, w.Reached s → w.Scans s → w.HasRoom s
  counts : ∀ s, w.Reached s → w.Scans s → w.BreaksCount s

/-- The variables at the beginning of a line. -/
structure LineStart (w : Wrapping) (s : WrapState) : Prop where
  len : s.len = s.indent.getD 0 + 1
  indent : ∀ k ∈ s.indent, k ≤ maxIndent
  first : s.len = 1 ∨ 0 < s.p ∧ w.text[s.p]? ≠ some (ch ' ')

/-- What holds in every state of a run. -/
structure Sound (w : Wrapping) (s : WrapState) : Prop where
  le : s.p ≤ w.text.length
  start : s.p < w.text.length → w.LineStart s

variable {w : Wrapping} {s s' : WrapState} {p q : ℕ} {out : Text}

/-! ### Invariants of the outer loop -/

theorem sound_initial (w : Wrapping) : w.Sound initial :=
  ⟨Nat.zero_le _, fun _ => ⟨rfl, fun k hk => (by cases hk), .inl rfl⟩⟩

/-- A line break and its length. -/
theorem lineBreak_bounds (h : w.text[q]?.any isLineBreak = true) :
    q < consumeLineBreak w.text q ∧ consumeLineBreak w.text q ≤ w.text.length := by
  have hq : q < w.text.length := lt_of_any_getElem? h
  rw [consumeLineBreak]
  split_ifs with hcrlf
  · obtain ⟨hlt, -⟩ := List.getElem?_eq_some_iff.mp hcrlf.2
    exact ⟨by omega, by omega⟩
  · exact ⟨by omega, by omega⟩

/-- The line behind a line break. -/
theorem lineBreak_nxt (h : w.text[q]?.any isLineBreak = true) :
    consumeLineBreak w.text q ≤ w.nxt (consumeLineBreak w.text q - 1) ∧
      w.nxt (consumeLineBreak w.text q - 1) ≤ w.text.length := by
  obtain ⟨hlt, hle⟩ := lineBreak_bounds h
  exact ⟨Nat.le_of_pred_lt (lt_nxt w (consumeLineBreak w.text q - 1)), nxt_le (by omega)⟩

theorem Sound.round (h : w.Sound s) (hp : s.p < w.text.length)
    (hroom : w.Scans s → w.HasRoom s) (hcounts : w.Scans s → w.BreaksCount s) :
    w.Round s (w.wrapRound s) :=
  wrapRound_round (h.start hp).indent hp (fun hcut => hroom ⟨hp, hcut⟩)
    fun hcut => hcounts ⟨hp, hcut⟩

theorem Round.sound (h : w.Round s s') : w.Sound s' := by
  cases h with
  | shortcut h => exact ⟨le_rfl, fun hlt => absurd hlt (lt_irrefl _)⟩
  | last len indent h hbreaks hfits => exact ⟨le_rfl, fun hlt => absurd hlt (lt_irrefl _)⟩
  | wrap t b p h ht hscan hat hb hp hend hspaces hstop hbreaks hfits =>
    exact ⟨hend, fun _ => ⟨rfl, hscan.indent, .inr ⟨show 0 < p by omega, hstop⟩⟩⟩
  | lineBreak q wrapped copies h hq hbreak hbreaks hfits hwrapped =>
    exact ⟨(lineBreak_nxt hbreak).2, fun _ => ⟨rfl, fun k hk => (by cases hk), .inl rfl⟩⟩

theorem Reached.round (h : w.Reached s) (hp : s.p < w.text.length) : w.Reached (w.wrapRound s) :=
  .tail () h trivial ⟨hp, rfl⟩

/-- **Invariants of a run**, and of its rounds as long as the lines have room. -/
theorem Reached.induction {I : WrapState → Prop}
    (hroom : ∀ s, w.Reached s → w.Sound s → I s → w.Scans s → w.HasRoom s)
    (hcounts : ∀ s, w.Reached s → w.Scans s → w.BreaksCount s) (hinitial : I initial)
    (hround : ∀ s, w.Reached s → w.Sound s → s.p < w.text.length → w.Round s (w.wrapRound s) →
      I s → I (w.wrapRound s))
    (h : w.Reached s) : w.Sound s ∧ I s := by
  refine (Reaches.invariant (P := fun s => w.Reached s ∧ w.Sound s ∧ I s) h
    ⟨.refl, sound_initial w, hinitial⟩ ?_).2
  rintro s s' - ⟨hreached, hs, hI⟩ - ⟨hp, rfl⟩
  have h := hs.round hp (hroom s hreached hs hI) (hcounts s hreached)
  exact ⟨hreached.round hp, h.sound, hround _ hreached hs hp h hI⟩

theorem Reached.invariant {I : WrapState → Prop} (hw : w.Regular) (hinitial : I initial)
    (hround : ∀ s, w.Reached s → w.Sound s → s.p < w.text.length → w.Round s (w.wrapRound s) →
      I s → I (w.wrapRound s))
    (h : w.Reached s) : w.Sound s ∧ I s :=
  h.induction (fun s hs _ _ => hw.room s hs) hw.counts hinitial hround

theorem Reached.sound (hw : w.Regular) (h : w.Reached s) : w.Sound s :=
  (h.invariant (I := fun _ => True) hw trivial fun _ _ _ _ _ _ => trivial).1

theorem Reached.isRound (hw : w.Regular) (h : w.Reached s) (hp : s.p < w.text.length) :
    w.Round s (w.wrapRound s) := (h.sound hw).round hp (hw.room s h) (hw.counts s h)

/-! ### The end of a run -/

/-- A round moves on. -/
theorem Round.lt (hp : s.p < w.text.length) (h : w.Round s s') : s.p < s'.p := by
  cases h with
  | shortcut h => exact hp
  | last len indent h hbreaks hfits => exact hp
  | wrap t b p h ht hscan hat hb hp' hend hspaces hstop hbreaks hfits => exact hb.trans_le hp'
  | lineBreak q wrapped copies h hq hbreak hbreaks hfits hwrapped =>
    exact hq.trans_lt ((lineBreak_bounds hbreak).1.trans_le (lineBreak_nxt hbreak).1)

/-- Enough rounds to come to the end. -/
theorem wrapRounds_ends (hw : w.Regular) {fuel : ℕ} (h : w.Reached s)
    (hfuel : w.text.length - s.p ≤ fuel) :
    ∃ s', w.wrapRounds fuel s = some s' ∧ w.Reached s' ∧ s'.p = w.text.length := by
  induction fuel generalizing s with
  | zero =>
    have hend : s.p = w.text.length := by
      have hle := (h.sound hw).le
      omega
    refine ⟨s, ?_, h, hend⟩
    rw [wrapRounds, if_neg (by omega)]
  | succ fuel ih =>
    rw [wrapRounds]
    split_ifs with hp
    · have hlt := (h.isRound hw hp).lt hp
      exact ih (h.round hp) (by omega)
    · refine ⟨s, rfl, h, ?_⟩
      have hle := (h.sound hw).le
      omega

/-- More rounds do not change the result. -/
theorem wrapRounds_mono {fuel : ℕ} (h : w.wrapRounds fuel s = some s') (n : ℕ) :
    w.wrapRounds (fuel + n) s = some s' := by
  induction fuel generalizing s with
  | zero =>
    rw [wrapRounds] at h
    split_ifs at h with hp
    cases n with
    | zero => rw [wrapRounds, if_neg hp, h]
    | succ n => rw [Nat.zero_add, wrapRounds, if_neg hp, h]
  | succ fuel ih =>
    rw [wrapRounds] at h
    rw [Nat.succ_add_eq_add_succ, Nat.add_succ, wrapRounds]
    split_ifs at h ⊢ with hp
    · exact ih h
    · exact h

theorem wraps_iff (hwidth : 10 ≤ w.width) {out : Text} :
    Wraps w out ↔ ∃ fuel s, w.wrapRounds fuel initial = some s ∧ s.wrapped = out := by
  refine exists_congr fun fuel => ?_
  rw [wrapLines, if_pos hwidth]
  cases w.wrapRounds fuel initial with
  | none =>
    refine ⟨fun h => ?_, fun ⟨s, h, _⟩ => ?_⟩
    · cases h
    · cases h
  | some s =>
    rw [Option.elim_some, Ending.returned.injEq]
    exact ⟨fun h => ⟨s, rfl, h⟩, fun ⟨s', h, h'⟩ => Option.some.inj h ▸ h'⟩

/-- There is only one result. -/
theorem wraps_unique (hwidth : 10 ≤ w.width) {out out' : Text} (h : Wraps w out)
    (h' : Wraps w out') : out = out' := by
  obtain ⟨fuel, s, hs, rfl⟩ := (wraps_iff hwidth).mp h
  obtain ⟨fuel', s', hs', rfl⟩ := (wraps_iff hwidth).mp h'
  have hmono := wrapRounds_mono hs fuel'
  rw [Nat.add_comm, wrapRounds_mono hs' fuel] at hmono
  rw [Option.some.inj hmono]

theorem Round.wrapped_isPrefix (h : w.Round s s') : ∃ more, s'.wrapped = s.wrapped ++ more := by
  cases h with
  | shortcut hcut => exact ⟨_, rfl⟩
  | last len indent hcut hbreaks hfits => exact ⟨_, rfl⟩
  | wrap b p k indent hcut hb hp' hend hspaces hbreaks hfits hvalid =>
    dsimp only
    simp only [List.append_assoc]
    exact ⟨_, rfl⟩
  | lineBreak q wrapped copies hcut hq hbreak hbreaks hfits hwrapped =>
    rcases hwrapped with ⟨rfl, -⟩ | ⟨rfl, -, -⟩
    · exact ⟨_, List.append_assoc _ _ _⟩
    · exact ⟨_, rfl⟩

theorem wrapRounds_wrapped (hw : w.Regular) {fuel : ℕ} (h : w.Reached s)
    (hs' : w.wrapRounds fuel s = some s') : ∃ more, s'.wrapped = s.wrapped ++ more := by
  induction fuel generalizing s with
  | zero =>
    rw [wrapRounds] at hs'
    split_ifs at hs'
    obtain rfl := Option.some.inj hs'
    exact ⟨[], (List.append_nil _).symm⟩
  | succ fuel ih =>
    rw [wrapRounds] at hs'
    split_ifs at hs' with hp
    · obtain ⟨more, hmore⟩ := (h.isRound hw hp).wrapped_isPrefix
      obtain ⟨more', hmore'⟩ := ih (h.round hp) hs'
      exact ⟨more ++ more', by rw [hmore', hmore, List.append_assoc]⟩
    · obtain rfl := Option.some.inj hs'
      exact ⟨[], (List.append_nil _).symm⟩

/-- The rounds up to a state that is reached. -/
theorem Reached.resume (h : w.Reached s) :
    ∃ n, ∀ fuel, w.wrapRounds (fuel + n) initial = w.wrapRounds fuel s := by
  induction h with
  | refl => exact ⟨0, fun _ => rfl⟩
  | tail _ _ _ hstep ih =>
    obtain ⟨n, hn⟩ := ih
    obtain ⟨hp, rfl⟩ := hstep
    refine ⟨n + 1, fun fuel => ?_⟩
    rw [← Nat.add_assoc, Nat.add_right_comm, hn, wrapRounds, if_pos hp]

/-- What was written in a state of the run is the beginning of the result. -/
theorem Reached.result (hw : w.Regular) (h : w.Reached s) (hout : Wraps w out) :
    ∃ more, out = s.wrapped ++ more ∧ (s.p = w.text.length → more = []) := by
  obtain ⟨s', hs', -, -⟩ := wrapRounds_ends hw h (Nat.sub_le w.text.length s.p)
  obtain ⟨n, hn⟩ := h.resume
  have hwraps : Wraps w s'.wrapped := (wraps_iff hw.width).mpr ⟨_, s', (hn _).trans hs', rfl⟩
  obtain rfl := wraps_unique hw.width hout hwraps
  obtain ⟨more, hmore⟩ := wrapRounds_wrapped hw h hs'
  refine ⟨more, hmore, fun hend => ?_⟩
  have hstop : w.wrapRounds 0 s = some s := by
    rw [wrapRounds, if_neg (by rw [hend]; exact lt_irrefl _)]
  have hsame := wrapRounds_mono hstop w.text.length
  rw [Nat.zero_add, hs', Option.some.injEq] at hsame
  rw [hsame] at hmore
  exact List.self_eq_append_right.mp hmore

/-! ### Lines without room -/

/-- A line without room. -/
structure Stuck (w : Wrapping) (s : WrapState) : Prop where
  scans : w.Scans s
  start : w.LineStart s
  room : ¬w.HasRoom s

theorem HasRoom.congr {s' : WrapState} (h : w.HasRoom s) (hp : s'.p = s.p) (hlen : s'.len = s.len) :
    w.HasRoom s' := by
  rwa [HasRoom, hp, hlen]

/-- The cursor goes back to the first character of a line, and stays there. -/
theorem Stuck.lineRound_eq (h : w.Stuck s) (hwidth : 10 ≤ w.width) (hfull : s.len = w.width) :
    w.lineRound s.p (beginLine s) = { beginLine s with len := w.width + 1 } := by
  obtain ⟨hp, -⟩ := h.scans
  obtain ⟨hpos, hspace⟩ := h.start.first.resolve_left (by omega)
  obtain ⟨d, hd, hor⟩ : ∃ d ∈ w.text[s.p]?, ¬(isLineBreak d = true ∨ isSkipped d = true) := by
    by_contra hnone
    push Not at hnone
    exact h.room (.inr ⟨hfull, hnone⟩)
  rw [not_or, Bool.not_eq_true, Bool.not_eq_true] at hor
  have hlen : (beginLine s).len = w.width := hfull
  obtain ⟨t, ht, hround⟩ := lineRound_cases (p := s.p) (s := beginLine s) hlen.le hp
  rw [hround]
  cases ht with
  | blank hc => exact absurd hc hspace
  | back c hc hblank hbreak hlast =>
    have hstart : w.Start s.p := fun c hc => by
      rw [← Option.some.inj (hd.symm.trans hc)]
      exact hor.2
    have hsucc : unsigned (w.width + 1) = w.width + 1 := by
      have hle : s.indent.getD 0 ≤ 64 := by
        cases hindent : s.indent with
        | none => exact Nat.zero_le 64
        | some k => exact h.start.indent k hindent
      have hlen := h.start.len
      exact Nat.mod_eq_of_lt (by omega)
    rw [advance]
    dsimp only
    rw [hlen, hsucc, show (beginLine s).ptr = s.p from rfl, nxt_pred hstart hpos hp.le]
  | hyphens stop n hstop hn hle hlen' hfound hc => cases hfound
  | split hlen' hfound hc hnext => cases hfound
  | visible c hc hblank hbreak hlt => omega
  | lineBreak c hc hbreak =>
    rw [← Option.some.inj (hd.symm.trans hc), hor.1] at hbreak
    cases hbreak

theorem Stuck.scanLine_eq (h : w.Stuck s) (hwidth : 10 ≤ w.width) :
    ∃ len, w.scanLine s.p (beginLine s) = { beginLine s with len } := by
  have hover (len : ℕ) (hlen : w.width < len) :
      w.scanLine s.p { beginLine s with len } = { beginLine s with len } := by
    rw [scanLine, dif_neg fun hin => absurd hin.1 (not_le.mpr hlen)]
  rcases Nat.lt_trichotomy s.len w.width with hlt | hfull | hgt
  · exact absurd (.inl hlt) h.room
  · refine ⟨w.width + 1, ?_⟩
    rw [scanLine, dif_pos ⟨hfull.le, h.scans.1⟩, h.lineRound_eq hwidth hfull]
    exact hover _ (Nat.lt_succ_self _)
  · exact ⟨s.len, hover _ hgt⟩

/-- **A line without room** is wrapped at its beginning, so that the next line is the same. -/
theorem Stuck.round (h : w.Stuck s) (hwidth : 10 ≤ w.width) : w.Stuck (w.wrapRound s) := by
  obtain ⟨hp, hcut⟩ := h.scans
  obtain ⟨len, hscan⟩ := h.scanLine_eq hwidth
  have hlarge : s.len ≠ 1 := fun heq => h.room (.inl (by omega))
  have hstop : scanWhile (fun i => w.text[i]? = some (ch ' ')) s.p w.text.length = s.p :=
    scanWhile_of_false (decide_eq_false (h.start.first.resolve_left hlarge).2)
  have hround : w.wrapRound s = w.insertSoftWrap s.p { beginLine s with len } := by
    rw [wrapRound]
    refine (if_neg hcut).trans ?_
    dsimp only
    rw [hscan, if_neg (fun hlast => absurd hlast.1 hp.ne)]
    exact if_pos rfl
  have hp' : (w.wrapRound s).p = s.p := by
    rw [hround]
    exact hstop
  have hlen' : (w.wrapRound s).len = s.len := by
    rw [hround, h.start.len]
    exact unsigned_indent (t := beginLine s) h.start.indent
  have hindent' : (w.wrapRound s).indent = s.indent := by
    rw [hround]
    rfl
  refine ⟨⟨hp' ▸ hp, ?_⟩, ⟨?_, ?_, ?_⟩, fun hroom => h.room (hroom.congr hp'.symm hlen'.symm)⟩
  · rwa [Shortcut, hp', hlen']
  · rw [hlen', hindent']
    exact h.start.len
  · rw [hindent']
    exact h.start.indent
  · rw [hlen', hp']
    exact h.start.first

theorem Stuck.wrapRounds_eq_none (hwidth : 10 ≤ w.width) {fuel : ℕ} (h : w.Stuck s) :
    w.wrapRounds fuel s = none := by
  induction fuel generalizing s with
  | zero => rw [wrapRounds, if_pos h.scans.1]
  | succ fuel ih => rw [wrapRounds, if_pos h.scans.1, ih (h.round hwidth)]

/-- **A call that returns** has room in every line. -/
theorem Reached.hasRoom (hwidth : 10 ≤ w.width)
    (hcounts : ∀ s, w.Reached s → w.Scans s → w.BreaksCount s) (hout : Wraps w out)
    (h : w.Reached s) (hs : w.Scans s) : w.HasRoom s := by
  obtain ⟨fuel, s', hs', -⟩ := (wraps_iff hwidth).mp hout
  have hroom (s : WrapState) (h : w.Reached s) (hsound : w.Sound s) (hs : w.Scans s) :
      w.HasRoom s := by
    by_contra hnot
    obtain ⟨n, hn⟩ := h.resume
    have hnone : w.wrapRounds fuel s = none :=
      Stuck.wrapRounds_eq_none hwidth ⟨hs, hsound.start hs.1, hnot⟩
    rw [← hn fuel, wrapRounds_mono hs' n] at hnone
    cases hnone
  refine hroom s h ?_ hs
  exact (h.induction (I := fun _ => True) (fun s h hsound _ => hroom s h hsound) hcounts trivial
    fun _ _ _ _ _ _ => trivial).1

end Wrapping

/-- Words that do not fit into a line, and a line break. -/
def words : Wrapping where
  text := bytes ['s', 'o', '-', 's', 'o', ' ', 'w', 'o', 'r', 'd', 's', '\n', 'e', 'n', 'd']
  stray := 0
  width := 10
  width_lt := by decide
  lineDelim := [ch '\n']

end Intent.Old
