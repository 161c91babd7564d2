import Intent.Library.Gen

/-!
# Two generators side by side

`Gen.Sim m m' Q s s'` compares a run of `m` from `s` with a run of `m'` from `s'`. The second one
follows the first: it returns where the first returns, with results and states related by `Q`, and
it raises the same exception where the first one raises. Nothing is said of a first run that hangs,
so that loops are compared by induction on the fuel of the first, and nothing of what is yielded.

The rules are those of two programs run in lockstep: one for a sequence on both sides
(`Gen.Sim.bind`), and for each action one that executes it on one side alone. `Gen.Sim.and_left` and
`Gen.Sim.and_right` add what is known of each run by itself.
-/

namespace Intent.Gen

variable {σ σ' τ τ' ε α β γ δ : Type}

/-- The run of `m'` from `s'` follows the run of `m` from `s`. -/
def Sim (m : Gen σ τ ε α) (m' : Gen σ' τ' ε β) (Q : α → σ → β → σ' → Prop) (s : σ) (s' : σ') :
    Prop :=
  m.wp s
    (fun a _ t => m'.wp s' (fun b _ t' => Q a t b t') (fun _ _ _ => False) fun _ => False)
    (fun e _ _ => m'.wp s' (fun _ _ _ => False) (fun e' _ _ => e' = e) fun _ => False)
    fun _ => True

section Rules

variable {m : Gen σ τ ε α} {m' : Gen σ' τ' ε β} {f : α → Gen σ τ ε γ} {f' : β → Gen σ' τ' ε δ}
  {Q Q' : α → σ → β → σ' → Prop} {s : σ} {s' : σ'}

/-- **Consequence.** -/
theorem Sim.imp (h : m.Sim m' Q s s') (hQ : ∀ a t b t', Q a t b t' → Q' a t b t') :
    m.Sim m' Q' s s' :=
  Gen.wp.imp h (fun a _ t h => h.imp (fun b _ t' => hQ a t b t') (fun _ _ _ h => h) fun _ h => h)
    (fun _ _ _ h => h) fun _ h => h

/-- Only the two runs matter. -/
theorem sim_congr {n : Gen σ τ ε α} {n' : Gen σ' τ' ε β} {t : σ} {t' : σ'} (h : m s = n t)
    (h' : m' s' = n' t') : m.Sim m' Q s s' ↔ n.Sim n' Q t t' := by
  unfold Sim wp
  rw [h, h']

/-- What two runs have yielded before does not matter either. -/
theorem sim_after {n : Gen σ τ ε α} {n' : Gen σ' τ' ε β} {t : σ} {t' : σ'} {ts : List τ}
    {ts' : List τ'} (h : m s = (n t).after ts) (h' : m' s' = (n' t').after ts') :
    m.Sim m' Q s s' ↔ n.Sim n' Q t t' := by
  unfold Sim wp
  rw [h, h', Trace.after_sat]
  simp only [Trace.after_sat]

/-- A first run that returns. -/
theorem Sim.returned (h : m.Sim m' Q s s') {ts : List τ} {t : σ} {a : α}
    (hm : m s = ⟨ts, t, .returned a⟩) :
    ∃ b ts' t', m' s' = ⟨ts', t', .returned b⟩ ∧ Q a t b t' :=
  (Gen.wp.returned h hm).exists_returned

/-- A second run that returns, unless the first one hangs. -/
theorem Sim.returned_right (h : m.Sim m' Q s s') {E : ε → List τ → σ → Prop}
    {R : α → List τ → σ → Prop} (hm : m.wp s R E fun _ => False) {ts' : List τ'} {t' : σ'} {b : β}
    (hm' : m' s' = ⟨ts', t', .returned b⟩) : ∃ a ts t, m s = ⟨ts, t, .returned a⟩ ∧ Q a t b t' := by
  unfold Sim wp at h
  unfold wp at hm
  rcases hs : m s with ⟨ts, t, a | e | _⟩
  · rw [hs, hm'] at h
    exact ⟨a, ts, t, rfl, h⟩
  · rw [hs, hm'] at h
    exact h.elim
  · rw [hs] at hm
    exact hm.elim

/-- **Conjunction** with what is known of the first run by itself. -/
theorem Sim.and_left (h : m.Sim m' Q s s') {R : α → σ → Prop} {E : ε → List τ → σ → Prop}
    {H : List τ → Prop} (hm : m.wp s (fun a _ t => R a t) E H) :
    m.Sim m' (fun a t b t' => Q a t b t' ∧ R a t) s s' := by
  refine (Gen.wp.and h hm).imp (fun a _ t h => ?_) (fun _ _ _ h => h.1) fun _ _ => trivial
  exact h.1.imp (fun b _ t' hb => ⟨hb, h.2⟩) (fun _ _ _ h => h) fun _ h => h

/-- **Conjunction** with what is known of the second run by itself. -/
theorem Sim.and_right (h : m.Sim m' Q s s') {R : β → σ' → Prop} {E : ε → List τ' → σ' → Prop}
    {H : List τ' → Prop} (hm' : m'.wp s' (fun b _ t' => R b t') E H) :
    m.Sim m' (fun a t b t' => Q a t b t' ∧ R b t') s s' :=
  Gen.wp.imp h (fun _ _ _ h => (h.and hm').imp (fun _ _ _ h => h) (fun _ _ _ h => h.1)
    fun _ h => h.1) (fun _ _ _ h => h) fun _ h => h

/-- **Sequences** on both sides. -/
theorem Sim.bind {Q₁ : γ → σ → δ → σ' → Prop} (h : m.Sim m' Q s s')
    (hf : ∀ a t b t', Q a t b t' → (f a).Sim (f' b) Q₁ t t') :
    (m >>= f).Sim (m' >>= f') Q₁ s s' := by
  unfold Sim
  rw [wp_bind]
  refine Gen.wp.imp h (fun a ts t h => ?_) (fun e _ _ h => ?_) fun _ _ => trivial
  · obtain ⟨b, ts', t', hm', hQ⟩ := h.exists_returned
    refine Gen.wp.imp (hf a t b t' hQ) (fun c _ u h => ?_) (fun e _ _ h => ?_) fun _ _ => trivial
    · rw [wp, bind_of_returned hm', Trace.after_sat]
      exact h
    · rw [wp, bind_of_returned hm', Trace.after_sat]
      exact h
  · rw [wp_bind]
    exact h.imp (fun _ _ _ h => h.elim) (fun _ _ _ h => h) fun _ h => h

/-- Two runs that return, whatever the one has to do with the other. -/
theorem sim_of_returns (R : α → σ → Prop) (R' : β → σ' → Prop)
    (hm : m.wp s (fun a _ t => R a t) (fun _ _ _ => False) fun _ => False)
    (hm' : m'.wp s' (fun b _ t' => R' b t') (fun _ _ _ => False) fun _ => False)
    (hQ : ∀ a t b t', R a t → R' b t' → Q a t b t') : m.Sim m' Q s s' := by
  refine Gen.wp.imp hm (fun a _ t h => ?_) (fun _ _ _ h => h.elim) fun _ h => h.elim
  exact hm'.imp (fun b _ t' h' => hQ a t b t' h h') (fun _ _ _ h => h) fun _ h => h

theorem sim_pure {a : α} {b : β} (h : Q a s b s') :
    (pure a : Gen σ τ ε α).Sim (pure b : Gen σ' τ' ε β) Q s s' := h

theorem sim_raise (e : ε) : (raise e : Gen σ τ ε α).Sim (raise e : Gen σ' τ' ε β) Q s s' := rfl

theorem sim_hang : (hang : Gen σ τ ε α).Sim m' Q s s' := trivial

theorem sim_modify {g : σ → σ} {g' : σ' → σ'} {Q : Unit → σ → Unit → σ' → Prop}
    (h : Q () (g s) () (g' s')) :
    (modify g : Gen σ τ ε Unit).Sim (modify g' : Gen σ' τ' ε Unit) Q s s' := h

end Rules

section Sides

variable {m : Gen σ τ ε α} {m' : Gen σ' τ' ε β} {Q : α → σ → β → σ' → Prop} {s : σ} {s' : σ'}

@[simp]
theorem sim_get_left {f : σ → Gen σ τ ε α} : (get >>= f).Sim m' Q s s' ↔ (f s).Sim m' Q s s' :=
  Iff.rfl

@[simp]
theorem sim_get_right {f : σ' → Gen σ' τ' ε β} : m.Sim (get >>= f) Q s s' ↔ m.Sim (f s') Q s s' :=
  Iff.rfl

@[simp]
theorem sim_modify_left {g : σ → σ} {f : Unit → Gen σ τ ε α} :
    (modify g >>= f).Sim m' Q s s' ↔ (f ()).Sim m' Q (g s) s' :=
  Iff.rfl

@[simp]
theorem sim_modify_right {g : σ' → σ'} {f : Unit → Gen σ' τ' ε β} :
    m.Sim (modify g >>= f) Q s s' ↔ m.Sim (f ()) Q s (g s') :=
  Iff.rfl

@[simp]
theorem sim_emit_left {t : τ} {f : Unit → Gen σ τ ε α} :
    (emit t >>= f).Sim m' Q s s' ↔ (f ()).Sim m' Q s s' := by
  unfold Sim wp
  rw [emit_bind, Trace.after_sat]

@[simp]
theorem sim_emit_right {t : τ'} {f : Unit → Gen σ' τ' ε β} :
    m.Sim (emit t >>= f) Q s s' ↔ m.Sim (f ()) Q s s' := by
  unfold Sim wp
  rw [emit_bind]
  simp only [Trace.after_sat]

/-- A choice that both sides make alike. -/
theorem sim_ite {c c' : Prop} [Decidable c] [Decidable c'] {m₁ m₂ : Gen σ τ ε α}
    {m₁' m₂' : Gen σ' τ' ε β} (hc : c ↔ c') (h₁ : c → m₁.Sim m₁' Q s s')
    (h₂ : ¬ c → m₂.Sim m₂' Q s s') :
    (if c then m₁ else m₂).Sim (if c' then m₁' else m₂') Q s s' := by
  by_cases h : c
  · rw [if_pos h, if_pos (hc.mp h)]
    exact h₁ h
  · rw [if_neg h, if_neg (mt hc.mpr h)]
    exact h₂ h

end Sides

end Intent.Gen
