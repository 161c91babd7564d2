import Mathlib.Algebra.Group.Nat.Defs
import Intent.Library.Run

/-!
# Sessions of the assignable clock

`core/time/assignable_clock-inline.h` counts the sessions that are open in an atomic counter. The
threads interleave at its atomic operations: `activate` and a forced `deactivate` are one step
each, the `deactivate` of a session is a `fetch_sub` and, where that found 0, an increment.

A session that a forced deactivation cancelled still decrements the counter when it ends. The
comment in `deactivate` says that this is harmless. It is where the counter is 0 at that moment:
`session_count_eq` says what a run has to observe for the counter to be right.
-/

namespace Intent.Old.AssignableClock

/-! ### The clock -/

/-- Where a session is in its life: counted, cancelled by a forced deactivation, between the two
steps of its `deactivate`, or done. -/
inductive Phase where
  | active
  | cancelled
  | repairing
  | closed
  deriving DecidableEq

/-- The counter, and the sessions in the order in which they were activated. -/
structure Clock where
  sessionCount : UInt32
  sessions : List Phase

/-- A clock without sessions. -/
def Clock.initial : Clock := ⟨0, []⟩

/-- `is_active`. -/
def Clock.isActive (s : Clock) : Bool := s.sessionCount > 0 ∧ s.sessionCount < 1000000

/-- The atomic steps; a session is named by its number. -/
inductive Action where
  | activate
  | fetchSub (i : ℕ)
  | repair (i : ℕ)
  | forceDeactivate
  deriving DecidableEq

/-- What a forced deactivation makes of a session. -/
def Phase.cancel : Phase → Phase
  | .active => .cancelled
  | p => p

/-- One atomic step. A session takes its `fetch_sub` once, and the increment after it only when it
found 0. -/
def Clock.step (s : Clock) : Action → Option Clock
  | .activate => some ⟨s.sessionCount + 1, s.sessions ++ [.active]⟩
  | .fetchSub i =>
    if s.sessions[i]? = some .active ∨ s.sessions[i]? = some .cancelled then
      let n := s.sessionCount
      some ⟨n - 1, s.sessions.set i (if n = 0 then .repairing else .closed)⟩
    else none
  | .repair i =>
    if s.sessions[i]? = some .repairing then
      some ⟨s.sessionCount + 1, s.sessions.set i .closed⟩
    else none
  | .forceDeactivate => some ⟨0, s.sessions.map Phase.cancel⟩

/-- The transitions of the clock. -/
def Clock.Step (s : Clock) (a : Action) (s' : Clock) : Prop := s.step a = some s'

/-- The number of sessions activated since the last forced deactivation and not deactivated. -/
def Clock.opened (s : Clock) : ℕ := s.sessions.count .active

/-- The number of `deactivate` calls between their two steps. -/
def Clock.pending (s : Clock) : ℕ := s.sessions.count .repairing

/-! ### The balance -/

/-- Once the repairs that are due are made, the counter will be the number of open sessions. -/
def Clock.Balanced (s : Clock) : Prop :=
  (s.sessionCount.toNat + s.pending) % 2 ^ 32 = s.opened % 2 ^ 32

/-- A step that keeps the balance: an active session ends where the counter is not 0, a cancelled
one where it is, and no repair is due at a forced deactivation. -/
def Clock.Keeps (s : Clock) : Action → Prop
  | .activate => True
  | .fetchSub i =>
    (s.sessions[i]? = some .active → s.sessionCount ≠ 0) ∧
      (s.sessions[i]? = some .cancelled → s.sessionCount = 0)
  | .repair _ => True
  | .forceDeactivate => s.pending % 2 ^ 32 = 0

instance (s : Clock) (a : Action) : Decidable (s.Keeps a) :=
  match a with
  | .activate => inferInstanceAs (Decidable True)
  | .fetchSub _ => inferInstanceAs (Decidable ((_ → _) ∧ (_ → _)))
  | .repair _ => inferInstanceAs (Decidable True)
  | .forceDeactivate => inferInstanceAs (Decidable (_ = _))

section Balance

variable {s s' : Clock} {a : Action} {i : ℕ} {x : Phase}

theorem count_map_cancel (l : List Phase) :
    (l.map Phase.cancel).count .active = 0 ∧
      (l.map Phase.cancel).count .repairing = l.count .repairing := by
  induction l with
  | nil => exact ⟨rfl, rfl⟩
  | cons p l ih =>
    obtain ⟨h₁, h₂⟩ := ih
    rw [List.map_cons, List.count_cons, List.count_cons, List.count_cons, h₁, h₂]
    cases p with
    | active => exact ⟨rfl, rfl⟩
    | cancelled => exact ⟨rfl, rfl⟩
    | repairing => exact ⟨rfl, rfl⟩
    | closed => exact ⟨rfl, rfl⟩

theorem balanced_activate (h : s.Balanced) :
    Clock.Balanced ⟨s.sessionCount + 1, s.sessions ++ [.active]⟩ := by
  have hone : (1 : UInt32).toNat = 1 := rfl
  simp only [Clock.Balanced, Clock.pending, Clock.opened, List.count_append] at h ⊢
  rw [UInt32.toNat_add, hone]
  simp only [List.count_singleton, beq_iff_eq, reduceCtorEq, if_false, if_true]
  omega

/-- The `fetch_sub` of a session in the phase `x`. -/
theorem balanced_fetchSub_iff (h : s.Balanced) (hx : s.sessions[i]? = some x)
    (hphase : x = .active ∨ x = .cancelled) :
    Clock.Balanced ⟨s.sessionCount - 1,
        s.sessions.set i (if s.sessionCount = 0 then .repairing else .closed)⟩ ↔
      (x = .active → s.sessionCount ≠ 0) ∧ (x = .cancelled → s.sessionCount = 0) := by
  have hone : (1 : UInt32).toNat = 1 := rfl
  have hlt := s.sessionCount.toNat_lt
  have hzero : s.sessionCount = 0 ↔ s.sessionCount.toNat = 0 := UInt32.toNat_inj.symm
  have hactive := fun y => count_set_add hx y .active
  have hrepairing := fun y => count_set_add hx y .repairing
  simp only [Clock.Balanced, Clock.pending, Clock.opened] at h ⊢
  rw [UInt32.toNat_sub, hone]
  -- the counter goes down by one; whether a repair is due depends on what it was
  split_ifs with hcount
  · specialize hactive .repairing
    specialize hrepairing .repairing
    rcases hphase with rfl | rfl
    · simp only [reduceCtorEq, if_false, if_true] at hactive hrepairing
      refine iff_of_false (fun hbalanced => ?_) fun hkeeps => hkeeps.1 rfl hcount
      omega
    · simp only [reduceCtorEq, if_false, if_true] at hactive hrepairing
      refine iff_of_true ?_ ⟨fun h => absurd h (by decide), fun _ => hcount⟩
      omega
  · specialize hactive .closed
    specialize hrepairing .closed
    rcases hphase with rfl | rfl
    · simp only [reduceCtorEq, if_false, if_true] at hactive hrepairing
      refine iff_of_true ?_ ⟨fun _ => hcount, fun h => absurd h (by decide)⟩
      omega
    · simp only [reduceCtorEq, if_false] at hactive hrepairing
      refine iff_of_false (fun hbalanced => ?_) fun hkeeps => hcount (hkeeps.2 rfl)
      omega

theorem balanced_repair (h : s.Balanced) (hx : s.sessions[i]? = some .repairing) :
    Clock.Balanced ⟨s.sessionCount + 1, s.sessions.set i .closed⟩ := by
  have hone : (1 : UInt32).toNat = 1 := rfl
  have hactive := count_set_add hx .closed .active
  have hrepairing := count_set_add hx .closed .repairing
  simp only [Clock.Balanced, Clock.pending, Clock.opened] at h ⊢
  rw [UInt32.toNat_add, hone]
  simp only [reduceCtorEq, if_false, if_true] at hactive hrepairing
  omega

/-- **One step.** From a balanced state, exactly the steps of `Keeps` lead to a balanced state. -/
theorem balanced_step_iff (h : s.Balanced) (hs : s.step a = some s') :
    s'.Balanced ↔ s.Keeps a := by
  cases a with
  | activate =>
    obtain rfl := Option.some.inj hs
    exact iff_of_true (balanced_activate h) trivial
  | fetchSub i =>
    rw [Clock.step] at hs
    split_ifs at hs with hphase
    obtain rfl := Option.some.inj hs
    rcases hphase with hx | hx
    · rw [balanced_fetchSub_iff h hx (.inl rfl), Clock.Keeps, hx, Option.some.injEq,
        Option.some.injEq]
    · rw [balanced_fetchSub_iff h hx (.inr rfl), Clock.Keeps, hx, Option.some.injEq,
        Option.some.injEq]
  | repair i =>
    rw [Clock.step] at hs
    split_ifs at hs with hx
    obtain rfl := Option.some.inj hs
    exact iff_of_true (balanced_repair h hx) trivial
  | forceDeactivate =>
    obtain rfl := Option.some.inj hs
    obtain ⟨hactive, hrepairing⟩ := count_map_cancel s.sessions
    have hzero : (0 : UInt32).toNat = 0 := rfl
    rw [Clock.Balanced, Clock.Keeps, Clock.pending, Clock.pending, Clock.opened, hactive,
      hrepairing, hzero, Nat.zero_add, Nat.zero_mod]

end Balance

/-! ### The count -/

/-- What a run has to observe: it keeps the balance, and has less than a million sessions open at
a time. -/
def Clock.Orderly (s : Clock) (a : Action) : Prop :=
  s.Keeps a ∧ (a = .activate → s.opened + 1 < 1000000)

instance (s : Clock) (a : Action) : Decidable (s.Orderly a) :=
  inferInstanceAs (Decidable (_ ∧ (_ → _)))

section Count

variable {s s' : Clock} {a : Action}

theorem count_active_set_le {l : List Phase} {i : ℕ} {x y : Phase} (hx : l[i]? = some x)
    (hy : y ≠ .active) : (l.set i y).count .active ≤ l.count .active := by
  have h := count_set_add hx y .active
  rw [if_neg hy] at h
  omega

/-- Only `activate` opens a session. -/
theorem opened_step_le (hs : s.step a = some s') :
    s'.opened ≤ s.opened ∨ a = .activate ∧ s'.opened = s.opened + 1 := by
  cases a with
  | activate =>
    obtain rfl := Option.some.inj hs
    exact .inr ⟨rfl, by simp [Clock.opened, List.count_append]⟩
  | fetchSub i =>
    rw [Clock.step] at hs
    split_ifs at hs with hphase
    obtain rfl := Option.some.inj hs
    have hy : (if s.sessionCount = 0 then Phase.repairing else .closed) ≠ .active := by
      split_ifs <;> decide
    rcases hphase with hx | hx
    · exact .inl (count_active_set_le hx hy)
    · exact .inl (count_active_set_le hx hy)
  | repair i =>
    rw [Clock.step] at hs
    split_ifs at hs with hx
    obtain rfl := Option.some.inj hs
    exact .inl (count_active_set_le hx (by decide))
  | forceDeactivate =>
    obtain rfl := Option.some.inj hs
    rw [Clock.opened, (count_map_cancel s.sessions).1]
    exact .inl (Nat.zero_le _)

/-- **Every run.** An orderly run stays balanced. -/
theorem orderly_invariant (h : Reaches Clock.Step Clock.Orderly .initial s) :
    s.Balanced ∧ s.opened < 1000000 := by
  refine h.invariant (P := fun s => s.Balanced ∧ s.opened < 1000000) ⟨rfl, by decide⟩ ?_
  rintro t u a ⟨hbalanced, hopened⟩ ⟨hkeeps, hactivate⟩ hstep
  refine ⟨(balanced_step_iff hbalanced hstep).mpr hkeeps, ?_⟩
  rcases opened_step_le hstep with hle | ⟨ha, heq⟩
  · omega
  · rw [heq]
    exact hactivate ha

end Count

/-- **The count of sessions.** In every state that an orderly run reaches, and in which no
`deactivate` is between its two steps, the counter is the number of sessions activated since the
last forced deactivation and not deactivated, and the clock is active exactly if there are any. -/
theorem session_count_eq (s : Clock) (h : Reaches Clock.Step Clock.Orderly .initial s)
    (hpending : s.pending = 0) :
    s.sessionCount.toNat = s.opened ∧ (s.isActive = true ↔ 0 < s.opened) := by
  obtain ⟨hbalanced, hopened⟩ := orderly_invariant h
  have hlt := s.sessionCount.toNat_lt
  -- below a million the count does not wrap, so that the balance is an equation
  have hcount : s.sessionCount.toNat = s.opened := by
    rw [Clock.Balanced, hpending] at hbalanced
    omega
  refine ⟨hcount, ?_⟩
  have hmillion : (1000000 : UInt32).toNat = 1000000 := rfl
  have hzero : (0 : UInt32).toNat = 0 := rfl
  rw [Clock.isActive, decide_eq_true_iff, gt_iff_lt, UInt32.lt_iff_toNat_lt,
    UInt32.lt_iff_toNat_lt, hmillion, hzero, hcount]
  omega

/-- A session is cancelled and ends while the next one is opened; the repair comes last. -/
theorem session_count_eq_cancelled :
    ∃ s : Clock, Reaches Clock.Step Clock.Orderly .initial s ∧ s.pending = 0 ∧
      s.sessionCount.toNat = 1 ∧ (s.isActive = true ↔ 0 < s.opened) := by
  have h₁ : Reaches Clock.Step Clock.Orderly .initial ⟨1, [.active]⟩ :=
    .tail .activate .refl (by decide) rfl
  have h₂ : Reaches Clock.Step Clock.Orderly .initial ⟨0, [.cancelled]⟩ :=
    h₁.tail .forceDeactivate (by decide) rfl
  have h₃ : Reaches Clock.Step Clock.Orderly .initial ⟨0 - 1, [.repairing]⟩ :=
    h₂.tail (.fetchSub 0) (by decide) rfl
  have h₄ : Reaches Clock.Step Clock.Orderly .initial ⟨0, [.repairing, .active]⟩ :=
    h₃.tail .activate (by decide) rfl
  have h₅ : Reaches Clock.Step Clock.Orderly .initial ⟨1, [.closed, .active]⟩ :=
    h₄.tail (.repair 0) (by decide) rfl
  exact ⟨_, h₅, by decide, session_count_eq _ h₅ (by decide)⟩

/-- A cancelled session that ends when the next one is open takes its place in the counter: the
clock is not active, with one session open. -/
theorem session_count_stolen :
    ∃ s : Clock, Reaches Clock.Step (fun _ _ => True) .initial s ∧ s.pending = 0 ∧
      s.opened = 1 ∧ s.sessionCount = 0 ∧ s.isActive = false := by
  have h₁ : Reaches Clock.Step (fun _ _ => True) .initial ⟨1, [.active]⟩ :=
    .tail .activate .refl trivial rfl
  have h₂ : Reaches Clock.Step (fun _ _ => True) .initial ⟨0, [.cancelled]⟩ :=
    h₁.tail .forceDeactivate trivial rfl
  have h₃ : Reaches Clock.Step (fun _ _ => True) .initial ⟨1, [.cancelled, .active]⟩ :=
    h₂.tail .activate trivial rfl
  have h₄ : Reaches Clock.Step (fun _ _ => True) .initial ⟨0, [.closed, .active]⟩ :=
    h₃.tail (.fetchSub 0) trivial rfl
  exact ⟨_, h₄, by decide, by decide, by decide, by decide⟩

end Intent.Old.AssignableClock
