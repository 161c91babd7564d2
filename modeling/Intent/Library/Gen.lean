import Mathlib.Tactic.Common

/-!
# Generators that mutate a state, may raise, and may hang

A generator of the scripting language is run to its end against one mutable state: it
yields a list of values and then either returns, raises, or never comes back. `Gen σ τ ε α`
is that computation as a state-passing function, with three design points:

* the state survives an exception (`Trace.state` is the state at the point where the run
  stopped), because a `finally` block goes on reading it;
* loops whose termination is in question are recursions on a fuel argument, and running out
  of fuel is the ending `hung`, kept apart from every genuine outcome;
* `Gen.protect` is `try … finally`, where the block may read one local variable of the
  protected body: a body that returns hands over the variable's value, and so does one that
  raises.

Reasoning goes through `Gen.wp`, the weakest precondition of a run with one postcondition
for each kind of ending. There is one rewriting rule for each way of building a generator
(`wp_pure`, `wp_bind`, …) and one consequence rule, `Gen.wp.imp`. `Gen.Yields` is the weaker
statement that every yielded value satisfies a predicate, however the run ends.
-/

namespace Intent

/-- How a run ends: it returns, it raises, or it exhausts its fuel. -/
inductive Ending (ε α : Type) where
  | returned (a : α)
  | raised (e : ε)
  | hung
  deriving DecidableEq, Repr

/-- A finished run: what it yielded, the state it left, and how it ended. -/
structure Trace (σ τ ε α : Type) where
  yields : List τ
  state : σ
  ending : Ending ε α
  deriving DecidableEq

/-- The same run, after `ts` had already been yielded. -/
def Trace.after {σ τ ε α : Type} (ts : List τ) (r : Trace σ τ ε α) : Trace σ τ ε α :=
  { r with yields := ts ++ r.yields }

/-- The run ends in `R` when it returns, in `E` when it raises, and in `H` when it hangs;
each is a predicate on what was yielded. -/
def Trace.Sat {σ τ ε α : Type} (r : Trace σ τ ε α) (R : α → List τ → σ → Prop)
    (E : ε → List τ → σ → Prop) (H : List τ → Prop) : Prop :=
  match r with
  | ⟨ts, s, .returned a⟩ => R a ts s
  | ⟨ts, s, .raised e⟩ => E e ts s
  | ⟨ts, _, .hung⟩ => H ts

/-- A run preceded by `ts` meets the postconditions shifted by `ts`. -/
theorem Trace.after_sat {σ τ ε α : Type} {r : Trace σ τ ε α} {ts : List τ}
    {R : α → List τ → σ → Prop} {E : ε → List τ → σ → Prop} {H : List τ → Prop} :
    (r.after ts).Sat R E H ↔
      r.Sat (fun a us => R a (ts ++ us)) (fun e us => E e (ts ++ us)) fun us => H (ts ++ us) := by
  rcases r with ⟨us, s', a | e | _⟩ <;> rfl

/-- What is known of a run, once it is known to have returned. -/
theorem Trace.Sat.of_returned {σ τ ε α : Type} {r : Trace σ τ ε α}
    {R : α → List τ → σ → Prop} {E : ε → List τ → σ → Prop} {H : List τ → Prop} {a : α}
    (h : r.Sat R E H) (hr : r.ending = .returned a) : R a r.yields r.state := by
  rcases r with ⟨ts, s, b | e | _⟩
  · cases hr
    exact h
  · cases hr
  · cases hr

/-- A generator over a mutable state `σ`, yielding `τ`, raising `ε`, returning `α`. -/
def Gen (σ τ ε α : Type) : Type := σ → Trace σ τ ε α

namespace Gen

variable {σ τ ε ε' ν α β : Type}

/-- Run `m`, then `f` on what it returned; an exception of `m` skips `f`. -/
protected def bind (m : Gen σ τ ε α) (f : α → Gen σ τ ε β) : Gen σ τ ε β := fun s =>
  match m s with
  | ⟨ts, s', .returned a⟩ => (f a s').after ts
  | ⟨ts, s', .raised e⟩ => ⟨ts, s', .raised e⟩
  | ⟨ts, s', .hung⟩ => ⟨ts, s', .hung⟩

instance : Monad (Gen σ τ ε) where
  pure a := fun s => ⟨[], s, .returned a⟩
  bind := Gen.bind

/-- The current state. -/
def get : Gen σ τ ε σ := fun s => ⟨[], s, .returned s⟩

/-- Update the state in place. -/
def modify (f : σ → σ) : Gen σ τ ε Unit := fun s => ⟨[], f s, .returned ()⟩

/-- `yield t`. -/
def emit (t : τ) : Gen σ τ ε Unit := fun s => ⟨[t], s, .returned ()⟩

/-- `yield` each element of a list in turn. -/
def emitAll (ts : List τ) : Gen σ τ ε Unit := fun s => ⟨ts, s, .returned ()⟩

/-- `raise e`. -/
def raise (e : ε) : Gen σ τ ε α := fun s => ⟨[], s, .raised e⟩

/-- The run that has no fuel left. -/
def hang : Gen σ τ ε α := fun s => ⟨[], s, .hung⟩

/-- Relabel the exceptions of a run. -/
def mapError (f : ε → ε') (m : Gen σ τ ε α) : Gen σ τ ε' α := fun s =>
  match m s with
  | ⟨ts, s', .returned a⟩ => ⟨ts, s', .returned a⟩
  | ⟨ts, s', .raised e⟩ => ⟨ts, s', .raised (f e)⟩
  | ⟨ts, s', .hung⟩ => ⟨ts, s', .hung⟩

/-- `try: body finally: fin v`, where `v` is the value the local read by the `finally`
block has when the body is left. -/
def protect (body : Gen σ τ (ε × ν) ν) (fin : ν → Gen σ τ ε Unit) : Gen σ τ ε Unit := fun s =>
  match body s with
  | ⟨ts, s', .returned v⟩ => (fin v s').after ts
  | ⟨ts, s', .raised (e, v)⟩ => ((fin v).bind (fun _ => raise e) s').after ts
  | ⟨ts, s', .hung⟩ => ⟨ts, s', .hung⟩

/-- `try: m except e: h e`. -/
def handle (m : Gen σ τ ε α) (h : ε → Gen σ τ ε' α) : Gen σ τ ε' α := fun s =>
  match m s with
  | ⟨ts, s', .returned a⟩ => ⟨ts, s', .returned a⟩
  | ⟨ts, s', .raised e⟩ => (h e s').after ts
  | ⟨ts, s', .hung⟩ => ⟨ts, s', .hung⟩

/-- Reading the state first. -/
theorem get_bind (f : σ → Gen σ τ ε β) (s : σ) : ((get : Gen σ τ ε σ) >>= f) s = f s s := rfl

/-- Updating the state first. -/
theorem modify_bind (g : σ → σ) (f : Unit → Gen σ τ ε β) (s : σ) :
    ((modify g : Gen σ τ ε Unit) >>= f) s = f () (g s) := rfl

/-- Yielding first. -/
theorem emit_bind (t : τ) (f : Unit → Gen σ τ ε β) (s : σ) :
    ((emit t : Gen σ τ ε Unit) >>= f) s = (f () s).after [t] := rfl

theorem bind_of_returned {m : Gen σ τ ε α} {f : α → Gen σ τ ε β} {s s' : σ} {ts : List τ} {a : α}
    (h : m s = ⟨ts, s', .returned a⟩) : (m >>= f) s = (f a s').after ts := by
  change Gen.bind m f s = _
  rw [Gen.bind, h]

theorem bind_of_raised {m : Gen σ τ ε α} {f : α → Gen σ τ ε β} {s s' : σ} {ts : List τ} {e : ε}
    (h : m s = ⟨ts, s', .raised e⟩) : (m >>= f) s = ⟨ts, s', .raised e⟩ := by
  change Gen.bind m f s = _
  rw [Gen.bind, h]

/-- Only its run matters to a sequence, of the first part. -/
theorem bind_congr {m m' : Gen σ τ ε α} {f : α → Gen σ τ ε β} {s s' : σ} (h : m s = m' s') :
    (m >>= f) s = (m' >>= f) s' := by
  change Gen.bind m f s = Gen.bind m' f s'
  rw [Gen.bind, Gen.bind, h]

/-- A first part that does not return decides how the sequence ends. -/
theorem bind_eq_of_not_returned {m : Gen σ τ ε α} {f g : α → Gen σ τ ε β} {s : σ}
    (h : ∀ a, (m s).ending ≠ .returned a) : (m >>= f) s = (m >>= g) s := by
  change Gen.bind m f s = Gen.bind m g s
  rw [Gen.bind, Gen.bind]
  rcases hm : m s with ⟨ts, s', a | e | _⟩
  · rw [hm] at h
    exact absurd rfl (h a)
  · rfl
  · rfl

/-- Two sequences that agree in what follows, unless that hangs. -/
theorem bind_eq_or_hung {m : Gen σ τ ε α} {f g : α → Gen σ τ ε β}
    (h : ∀ a s, f a s = g a s ∨ (f a s).ending = .hung) (s : σ) :
    (m >>= f) s = (m >>= g) s ∨ ((m >>= f) s).ending = .hung := by
  rcases hm : m s with ⟨ts, s', a | e | _⟩
  · rw [bind_of_returned hm, bind_of_returned hm]
    rcases h a s' with heq | hung
    · exact .inl (by rw [heq])
    · exact .inr hung
  · refine .inl (bind_eq_of_not_returned ?_)
    rw [hm]
    exact fun a h => by cases h
  · refine .inl (bind_eq_of_not_returned ?_)
    rw [hm]
    exact fun a h => by cases h

/-- What a sequence yields: first what its first part does, then what follows if that returns. -/
theorem yields_bind (m : Gen σ τ ε α) (f : α → Gen σ τ ε β) (s : σ) :
    ∃ us, ((m >>= f) s).yields = (m s).yields ++ us ∧
      (us = [] ∨ ∃ a ts s', m s = ⟨ts, s', .returned a⟩ ∧ us = (f a s').yields) := by
  change ∃ us, (Gen.bind m f s).yields = _ ∧ _
  rw [Gen.bind]
  rcases m s with ⟨ts, s', a | e | _⟩
  · exact ⟨_, rfl, .inr ⟨a, ts, s', rfl, rfl⟩⟩
  · exact ⟨[], (List.append_nil ts).symm, .inl rfl⟩
  · exact ⟨[], (List.append_nil ts).symm, .inl rfl⟩

/-! ### Weakest preconditions -/

/-- The weakest precondition: running `m` from `s` meets the three postconditions. -/
def wp (m : Gen σ τ ε α) (s : σ) (R : α → List τ → σ → Prop) (E : ε → List τ → σ → Prop)
    (H : List τ → Prop) : Prop :=
  (m s).Sat R E H

variable {m : Gen σ τ ε α} {f : α → Gen σ τ ε β} {s : σ}
variable {R R' : α → List τ → σ → Prop} {E E' : ε → List τ → σ → Prop} {H H' : List τ → Prop}

/-- **Consequence**: postconditions may be weakened. -/
theorem wp.imp (h : m.wp s R E H) (hR : ∀ a ts s', R a ts s' → R' a ts s')
    (hE : ∀ e ts s', E e ts s' → E' e ts s') (hH : ∀ ts, H ts → H' ts) : m.wp s R' E' H' := by
  revert h
  unfold wp
  rcases m s with ⟨ts, s', a | e | _⟩
  · exact hR a ts s'
  · exact hE e ts s'
  · exact hH ts

/-- **Conjunction**: what is known of a run in two ways is known together. -/
theorem wp.and (h : m.wp s R E H) (h' : m.wp s R' E' H') :
    m.wp s (fun a ts s' => R a ts s' ∧ R' a ts s') (fun e ts s' => E e ts s' ∧ E' e ts s')
      fun ts => H ts ∧ H' ts := by
  revert h h'
  unfold wp
  rcases m s with ⟨ts, s', a | e | _⟩ <;> exact fun h h' => ⟨h, h'⟩

/-- What a run is known to end in, read off a concrete return. -/
theorem wp.returned (h : m.wp s R E H) {ts : List τ} {s' : σ} {a : α}
    (hm : m s = ⟨ts, s', .returned a⟩) : R a ts s' := by
  rw [wp, hm] at h
  exact h

/-- A run that cannot hang, and does not raise with what it yields, returns. -/
theorem wp.exists_returned_of (h : m.wp s R E fun _ => False)
    (hE : ∀ e s', ¬ E e (m s).yields s') : ∃ a ts s', m s = ⟨ts, s', .returned a⟩ ∧ R a ts s' := by
  unfold wp at h
  rcases hm : m s with ⟨ts, s', a | e | _⟩
  · rw [hm] at h
    exact ⟨a, ts, s', rfl, h⟩
  · rw [hm] at h hE
    exact absurd h (hE e s')
  · rw [hm] at h
    exact h.elim

/-- A run that can neither raise nor hang returns. -/
theorem wp.exists_returned (h : m.wp s R (fun _ _ _ => False) fun _ => False) :
    ∃ a ts s', m s = ⟨ts, s', .returned a⟩ ∧ R a ts s' :=
  h.exists_returned_of fun _ _ h => h

/-- Two sequences that agree in what follows, after each return of the first part. -/
theorem bind_eq_of_wp {g : α → Gen σ τ ε β}
    (h : m.wp s (fun a _ s' => f a s' = g a s') (fun _ _ _ => True) fun _ => True) :
    (m >>= f) s = (m >>= g) s := by
  rcases hm : m s with ⟨ts, s', a | e | _⟩
  · rw [bind_of_returned hm, bind_of_returned hm, h.returned hm]
  · refine bind_eq_of_not_returned ?_
    rw [hm]
    exact fun a h => by cases h
  · refine bind_eq_of_not_returned ?_
    rw [hm]
    exact fun a h => by cases h

/-- What returns, returns as it does. -/
theorem wp_run : m.wp s (fun a ts s' => m s = ⟨ts, s', .returned a⟩) (fun _ _ _ => True)
    fun _ => True := by
  unfold wp
  rcases m s with ⟨ts, s', a | e | _⟩
  · rfl
  · trivial
  · trivial

@[simp]
theorem wp_pure (a : α) : (pure a : Gen σ τ ε α).wp s R E H ↔ R a [] s := Iff.rfl

@[simp]
theorem wp_get {R : σ → List τ → σ → Prop} :
    (get : Gen σ τ ε σ).wp s R E H ↔ R s [] s := Iff.rfl

@[simp]
theorem wp_modify (g : σ → σ) {R : Unit → List τ → σ → Prop} :
    (modify g : Gen σ τ ε Unit).wp s R E H ↔ R () [] (g s) := Iff.rfl

@[simp]
theorem wp_emit (t : τ) {R : Unit → List τ → σ → Prop} :
    (emit t : Gen σ τ ε Unit).wp s R E H ↔ R () [t] s := Iff.rfl

@[simp]
theorem wp_emitAll (ts : List τ) {R : Unit → List τ → σ → Prop} :
    (emitAll ts : Gen σ τ ε Unit).wp s R E H ↔ R () ts s := Iff.rfl

@[simp]
theorem wp_raise (e : ε) : (raise e : Gen σ τ ε α).wp s R E H ↔ E e [] s := Iff.rfl

@[simp]
theorem wp_hang : (hang : Gen σ τ ε α).wp s R E H ↔ H [] := Iff.rfl

@[simp]
theorem wp_bind {R : β → List τ → σ → Prop} :
    (m >>= f).wp s R E H ↔
      m.wp s
        (fun a ts s' => (f a).wp s' (fun b us => R b (ts ++ us)) (fun e us => E e (ts ++ us))
          fun us => H (ts ++ us))
        E H := by
  change (Gen.bind m f s).Sat R E H ↔ (m s).Sat _ E H
  unfold Gen.bind
  rcases m s with ⟨ts, s', a | e | _⟩
  · exact Trace.after_sat
  · exact Iff.rfl
  · exact Iff.rfl

@[simp]
theorem wp_mapError (g : ε' → ε) (m : Gen σ τ ε' α) :
    (mapError g m).wp s R E H ↔ m.wp s R (fun e => E (g e)) H := by
  unfold wp mapError
  rcases m s with ⟨ts, s', a | e | _⟩ <;> rfl

@[simp]
theorem wp_protect {body : Gen σ τ (ε × ν) ν} {fin : ν → Gen σ τ ε Unit}
    {R : Unit → List τ → σ → Prop} :
    (protect body fin).wp s R E H ↔
      body.wp s
        (fun v ts s' => (fin v).wp s' (fun u us => R u (ts ++ us)) (fun e us => E e (ts ++ us))
          fun us => H (ts ++ us))
        (fun ev ts s' => (fin ev.2).wp s' (fun _ us s'' => E ev.1 (ts ++ us) s'')
          (fun e us => E e (ts ++ us)) fun us => H (ts ++ us))
        H := by
  change (protect body fin s).Sat R E H ↔ (body s).Sat _ _ H
  unfold protect
  rcases body s with ⟨ts, s', v | ⟨e, v⟩ | _⟩
  · exact Trace.after_sat
  · refine Trace.after_sat.trans ?_
    change ((fin v) >>= fun _ => raise e).wp s' _ _ _ ↔ (fin v).wp s' _ _ _
    simp only [wp_bind, wp_raise, List.append_nil]
  · exact Iff.rfl

@[simp]
theorem wp_handle {m : Gen σ τ ε' α} {h : ε' → Gen σ τ ε α} :
    (handle m h).wp s R E H ↔
      m.wp s R
        (fun e ts s' => (h e).wp s' (fun a us => R a (ts ++ us)) (fun e us => E e (ts ++ us))
          fun us => H (ts ++ us))
        H := by
  unfold wp handle
  rcases m s with ⟨ts, s', a | e | _⟩
  · exact Iff.rfl
  · exact Trace.after_sat
  · exact Iff.rfl

@[simp]
theorem wp_ite {c : Prop} [Decidable c] {m₁ m₂ : Gen σ τ ε α} :
    (if c then m₁ else m₂).wp s R E H ↔
      (c → m₁.wp s R E H) ∧ (¬c → m₂.wp s R E H) := by
  split_ifs with h <;> simp [h]

/-! ### What every yielded value satisfies -/

/-- However a run ends, it only yields values that satisfy `P`. -/
def Yields (P : τ → Prop) (m : Gen σ τ ε α) : Prop := ∀ s, ∀ t ∈ (m s).yields, P t

variable {P : τ → Prop}

theorem Yields.pure {a : α} : (Pure.pure a : Gen σ τ ε α).Yields P := fun _ _ ht => by cases ht

theorem Yields.get : (get : Gen σ τ ε σ).Yields P := fun _ _ ht => by cases ht

theorem Yields.modify {g : σ → σ} : (modify g : Gen σ τ ε Unit).Yields P :=
  fun _ _ ht => by cases ht

theorem Yields.raise {e : ε} : (raise e : Gen σ τ ε α).Yields P := fun _ _ ht => by cases ht

theorem Yields.hang : (hang : Gen σ τ ε α).Yields P := fun _ _ ht => by cases ht

theorem Yields.emitAll {ts : List τ} (h : ∀ t ∈ ts, P t) :
    (emitAll ts : Gen σ τ ε Unit).Yields P := fun _ => h

theorem Yields.emit {t : τ} (h : P t) : (emit t : Gen σ τ ε Unit).Yields P :=
  fun _ _ ht => List.mem_singleton.mp ht ▸ h

theorem Yields.bind (hm : m.Yields P) (hf : ∀ a, (f a).Yields P) : (m >>= f).Yields P := by
  intro s t ht
  change t ∈ (Gen.bind m f s).yields at ht
  have hm' := hm s
  unfold Gen.bind at ht
  rcases hs : m s with ⟨ts, s', a | e | _⟩
  · rw [hs] at ht hm'
    rcases List.mem_append.mp ht with h | h
    · exact hm' t h
    · exact hf a s' t h
  · rw [hs] at ht hm'
    exact hm' t ht
  · rw [hs] at ht hm'
    exact hm' t ht

theorem Yields.mapError {g : ε → ε'} (hm : m.Yields P) : (mapError g m).Yields P := by
  intro s t ht
  have hm' := hm s
  unfold Gen.mapError at ht
  rcases hs : m s with ⟨ts, s', a | e | _⟩ <;> rw [hs] at ht hm' <;> exact hm' t ht

theorem Yields.protect {body : Gen σ τ (ε × ν) ν} {fin : ν → Gen σ τ ε Unit}
    (hb : body.Yields P) (hf : ∀ v, (fin v).Yields P) : (protect body fin).Yields P := by
  intro s t ht
  have hb' := hb s
  unfold Gen.protect at ht
  rcases hs : body s with ⟨ts, s', v | ⟨e, v⟩ | _⟩
  · rw [hs] at ht hb'
    rcases List.mem_append.mp ht with h | h
    · exact hb' t h
    · exact hf v s' t h
  · rw [hs] at ht hb'
    rcases List.mem_append.mp ht with h | h
    · exact hb' t h
    · exact (Yields.bind (hf v) fun _ => Yields.raise) s' t h
  · rw [hs] at ht hb'
    exact hb' t ht

theorem Yields.ite {c : Prop} [Decidable c] {m₁ m₂ : Gen σ τ ε α} (h₁ : m₁.Yields P)
    (h₂ : m₂.Yields P) : (if c then m₁ else m₂).Yields P := by
  split_ifs
  · exact h₁
  · exact h₂

end Gen

end Intent
