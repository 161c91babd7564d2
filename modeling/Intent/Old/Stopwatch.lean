import Mathlib.Algebra.BigOperators.Group.List.Basic
import Mathlib.Algebra.Ring.Int.Defs
import Mathlib.Data.List.Induction
import Mathlib.Tactic.Common

/-!
# The stopwatch

`core/time/stopwatch-inline.h`. A duration is a number of nanoseconds in an `int64_t`, and so is a
reading of the clock. Next to the stopwatch there is an account of what it should have measured,
in integers.

`Run.tracks` relates them after every sequence of calls: `elapsed` is the total of the running
intervals and `split_count` the number of splits, up to the width of their types. What `stop`
returns is the last interval of the split. It is the split if that was not paused while it ran
(`stopwatch_accounted_iff`).
-/

namespace Intent.Old

/-! ### The stopwatch -/

namespace Stopwatch

/-- `stopwatch::state`. -/
inductive State where
  | stopped
  | paused
  | running
  deriving DecidableEq, Repr

/-- The functions that can be called. -/
inductive Call where
  | start
  | resume
  | pause
  | stop
  deriving DecidableEq, Repr

end Stopwatch

open Stopwatch

/-- `stopwatch`. -/
structure Stopwatch where
  splitCount : UInt64
  elapsed : Int64
  startTime : Int64
  currentState : State

namespace Stopwatch

variable (w : Stopwatch) (now : Int64)

/-- The constructor. `start_time` is not set before it is used. -/
def initial : Stopwatch := ⟨0, 0, 0, .stopped⟩

/-- `start`. -/
def start : Stopwatch :=
  if w.currentState = .stopped then
    { w with startTime := now, currentState := .running, splitCount := w.splitCount + 1 }
  else w

/-- `resume`. -/
def resume : Stopwatch :=
  if w.currentState = .paused then { w with startTime := now, currentState := .running } else w

/-- `pause`. -/
def pause : Stopwatch :=
  if w.currentState = .running then
    { w with elapsed := w.elapsed + (now - w.startTime), currentState := .paused }
  else w

/-- `stop`, and what it returns. -/
def stop : Stopwatch × Int64 :=
  match w.currentState with
  | .running =>
    let n := now - w.startTime
    ({ w with elapsed := w.elapsed + n, currentState := .stopped }, n)
  | .paused => ({ w with currentState := .stopped }, 0)
  | .stopped => (w, 0)

/-- A call, with what it returns if that is a duration. -/
def call : Call → Stopwatch × Option Int64
  | .start => (w.start now, none)
  | .resume => (w.resume now, none)
  | .pause => (w.pause now, none)
  | .stop => ((w.stop now).1, some (w.stop now).2)

/-! ### The account -/

/-- A split that is over: how long it ran up to its last pause, and after it. -/
structure EndedSplit where
  banked : ℤ
  last : ℤ
  deriving DecidableEq, Repr

/-- What there is to be measured: when the running interval began, how long the active split ran
before it, the total of the running intervals that are over, and the number of splits. -/
structure Account where
  state : State
  since : ℤ
  banked : ℤ
  total : ℤ
  splits : ℕ
  deriving DecidableEq, Repr

namespace Account

variable (a : Account) (t : ℤ)

/-- Nothing was measured. -/
def initial : Account := ⟨.stopped, 0, 0, 0, 0⟩

/-- A call at a time, with the split that it ends. -/
def call : Call → Account × Option EndedSplit
  | .start =>
    if a.state = .stopped then
      ({ a with state := .running, since := t, splits := a.splits + 1 }, none)
    else (a, none)
  | .resume =>
    if a.state = .paused then ({ a with state := .running, since := t }, none) else (a, none)
  | .pause =>
    if a.state = .running then
      ({ a with
        state := .paused
        banked := a.banked + (t - a.since)
        total := a.total + (t - a.since) }, none)
    else (a, none)
  | .stop =>
    match a.state with
    | .running =>
      ({ a with state := .stopped, banked := 0, total := a.total + (t - a.since) },
        some ⟨a.banked, t - a.since⟩)
    | .paused => ({ a with state := .stopped, banked := 0 }, some ⟨a.banked, 0⟩)
    | .stopped => (a, none)

end Account

/-! ### Runs -/

/-- The stopwatch after some calls, its account, what the calls of `stop` returned, and what those
returned that ended a split, from the latest one on. -/
structure Run where
  watch : Stopwatch
  account : Account
  returned : List Int64
  ended : List (Int64 × EndedSplit)

namespace Run

/-- Before the first call. -/
def initial : Run := ⟨Stopwatch.initial, Account.initial, [], []⟩

/-- One more call. -/
def next (r : Run) (c : Call) (now : Int64) : Run :=
  let (watch, value) := r.watch.call now c
  let (account, split) := r.account.call now.toInt c
  ⟨watch, account, value.toList ++ r.returned,
    (value.bind fun v => split.map (v, ·)).toList ++ r.ended⟩

/-- The calls in order, each with the reading of the clock. -/
def after (calls : List (Call × Int64)) : Run := calls.foldl (fun r c => r.next c.1 c.2) initial

/-- The stopwatch accounts for the time: `elapsed` is the total of the intervals, `split_count` the
number of splits, every split is returned, and in the end they add up. -/
structure Accounted (r : Run) : Prop where
  elapsed : r.watch.elapsed.toInt = r.account.total
  splitCount : r.watch.splitCount.toNat = r.account.splits
  ended : ∀ e ∈ r.ended, e.1.toInt = e.2.banked + e.2.last
  sum : r.account.state = .stopped → (r.returned.map Int64.toInt).sum = r.watch.elapsed.toInt

/-- **The invariant.** The stopwatch is as the account, up to the width of its counters, and
returns the last interval of a split. -/
structure Tracks (r : Run) : Prop where
  state : r.watch.currentState = r.account.state
  startTime : r.account.state = .running → r.watch.startTime.toInt = r.account.since
  elapsed : r.watch.elapsed = Int64.ofInt r.account.total
  splitCount : r.watch.splitCount = UInt64.ofNat r.account.splits
  ended : ∀ e ∈ r.ended, e.1 = Int64.ofInt e.2.last
  returned : (r.returned.map Int64.toInt).sum = (r.ended.map fun e => e.1.toInt).sum
  banked_nonneg : 0 ≤ r.account.banked
  banked_le : r.account.banked ≤ r.account.total
  banked_stopped : r.account.state = .stopped → r.account.banked = 0
  nonneg : ∀ e ∈ r.ended, 0 ≤ e.2.banked ∧ 0 ≤ e.2.last
  le_total : ∀ e ∈ r.ended, e.2.banked + e.2.last ≤ r.account.total
  total : (r.ended.map fun e => e.2.banked + e.2.last).sum + r.account.banked = r.account.total

theorem tracks_initial : Tracks initial where
  state := rfl
  startTime := fun h => by cases h
  elapsed := rfl
  splitCount := rfl
  ended := List.forall_mem_nil _
  returned := rfl
  banked_nonneg := Int.le_refl 0
  banked_le := Int.le_refl 0
  banked_stopped := fun _ => rfl
  nonneg := List.forall_mem_nil _
  le_total := List.forall_mem_nil _
  total := rfl

variable {r : Run}

/-- The length of an interval is the difference of the readings. -/
theorem sub_eq_ofInt {x y : Int64} {t : ℤ} (h : y.toInt = t) :
    x - y = Int64.ofInt (x.toInt - t) := by
  rw [Int64.ofInt_sub, Int64.ofInt_toInt, ← h, Int64.ofInt_toInt]

theorem elapsed_add {elapsed x y : Int64} {total t : ℤ} (he : elapsed = Int64.ofInt total)
    (h : y.toInt = t) : elapsed + (x - y) = Int64.ofInt (total + (x.toInt - t)) := by
  rw [Int64.ofInt_add, he, sub_eq_ofInt h]

/-- **The step.** Every call keeps the invariant, if the clock did not go back. -/
theorem Tracks.next (h : r.Tracks) (c : Call) {now : Int64}
    (hnow : r.account.state = .running → r.account.since ≤ now.toInt) : (r.next c now).Tracks := by
  obtain ⟨⟨splitCount, elapsed, startTime, currentState⟩, ⟨state, since, banked, total, splits⟩,
    returned, ended⟩ := r
  have hstate : currentState = state := h.state
  subst currentState
  have hcount : splitCount = UInt64.ofNat splits := h.splitCount
  have hbanked : 0 ≤ banked ∧ banked ≤ total := ⟨h.banked_nonneg, h.banked_le⟩
  have htotal : (ended.map fun e => e.2.banked + e.2.last).sum + banked = total := h.total
  cases c with
  | start =>
    cases state with
    | stopped =>
      have hnext : splitCount + 1 = UInt64.ofNat (splits + 1) := by
        rw [UInt64.ofNat_add, hcount]
        rfl
      exact { h with
        state := rfl
        startTime := fun _ => rfl
        splitCount := hnext
        banked_stopped := fun h => by cases h }
    | paused => exact h
    | running => exact h
  | resume =>
    cases state with
    | stopped => exact h
    | paused =>
      exact { h with
        state := rfl
        startTime := fun _ => rfl
        banked_stopped := fun h => by cases h }
    | running => exact h
  | pause =>
    cases state with
    | stopped => exact h
    | paused => exact h
    | running =>
      -- the interval is banked, and counted in `elapsed` at once
      have hlen : 0 ≤ now.toInt - since := Int.sub_nonneg_of_le (hnow rfl)
      exact { h with
        state := rfl
        startTime := fun h => by cases h
        elapsed := elapsed_add h.elapsed (h.startTime rfl)
        banked_nonneg := Int.add_nonneg hbanked.1 hlen
        banked_le := Int.add_le_add_right hbanked.2 _
        banked_stopped := fun h => by cases h
        le_total := fun e he => Int.le_trans (h.le_total e he) (Int.le_add_of_nonneg_right hlen)
        total := (Int.add_assoc _ _ _).symm.trans (congrArg (· + (now.toInt - since)) htotal) }
  | stop =>
    cases state with
    | stopped => exact { h with returned := (Int.zero_add _).trans h.returned }
    | paused =>
      -- the split ends with what is banked, and `0` is returned
      have hsum : (banked + 0 + (ended.map fun e => e.2.banked + e.2.last).sum) + 0 = total := by
        omega
      exact { h with
        state := rfl
        startTime := fun h => by cases h
        ended := List.forall_mem_cons.mpr ⟨rfl, h.ended⟩
        returned := congrArg ((0 : Int64).toInt + ·) h.returned
        banked_nonneg := Int.le_refl 0
        banked_le := Int.le_trans hbanked.1 hbanked.2
        banked_stopped := fun _ => rfl
        nonneg := List.forall_mem_cons.mpr ⟨⟨hbanked.1, Int.le_refl 0⟩, h.nonneg⟩
        le_total := List.forall_mem_cons.mpr ⟨by rw [Int.add_zero]; exact hbanked.2, h.le_total⟩
        total := hsum }
    | running =>
      -- the split ends with what is banked and the last interval, which is returned
      have hlen : 0 ≤ now.toInt - since := Int.sub_nonneg_of_le (hnow rfl)
      have hsum : (banked + (now.toInt - since) +
          (ended.map fun e => e.2.banked + e.2.last).sum) + 0 = total + (now.toInt - since) := by
        omega
      exact { h with
        state := rfl
        startTime := fun h => by cases h
        elapsed := elapsed_add h.elapsed (h.startTime rfl)
        ended := List.forall_mem_cons.mpr ⟨sub_eq_ofInt (h.startTime rfl), h.ended⟩
        returned := congrArg ((now - startTime).toInt + ·) h.returned
        banked_nonneg := Int.le_refl 0
        banked_le := Int.add_nonneg (Int.le_trans hbanked.1 hbanked.2) hlen
        banked_stopped := fun _ => rfl
        nonneg := List.forall_mem_cons.mpr ⟨⟨hbanked.1, hlen⟩, h.nonneg⟩
        le_total := List.forall_mem_cons.mpr ⟨Int.add_le_add_right hbanked.2 _, fun e he =>
          Int.le_trans (h.le_total e he) (Int.le_add_of_nonneg_right hlen)⟩
        total := hsum }

theorem after_concat (calls : List (Call × Int64)) (c : Call × Int64) :
    after (calls ++ [c]) = (after calls).next c.1 c.2 :=
  List.foldl_concat _ _ _ _

/-- A running interval began in this call or before it. -/
theorem next_since {c : Call} {now : Int64} (h : (r.next c now).account.state = .running) :
    (r.next c now).account.since = now.toInt ∨
      r.account.state = .running ∧ (r.next c now).account.since = r.account.since := by
  obtain ⟨watch, ⟨state, since, banked, total, splits⟩, returned, ended⟩ := r
  cases c with
  | start =>
    cases state with
    | stopped => exact .inl rfl
    | paused => exact .inr ⟨h, rfl⟩
    | running => exact .inr ⟨h, rfl⟩
  | resume =>
    cases state with
    | stopped => exact .inr ⟨h, rfl⟩
    | paused => exact .inl rfl
    | running => exact .inr ⟨h, rfl⟩
  | pause =>
    cases state with
    | stopped => exact .inr ⟨h, rfl⟩
    | paused => exact .inr ⟨h, rfl⟩
    | running => cases h
  | stop => cases state <;> cases h

/-- A running interval began at one of the readings. -/
theorem since_mem (calls : List (Call × Int64)) (h : (after calls).account.state = .running) :
    ∃ now ∈ calls.map Prod.snd, (after calls).account.since = now.toInt := by
  induction calls using List.reverseRecOn with
  | nil => cases h
  | append_singleton calls c ih =>
    rw [after_concat] at h ⊢
    rw [List.map_append, List.map_singleton]
    rcases next_since h with hnow | ⟨hrunning, hsince⟩
    · exact ⟨c.2, List.mem_append_right _ List.mem_cons_self, hnow⟩
    · obtain ⟨now, hmem, heq⟩ := ih hrunning
      exact ⟨now, List.mem_append_left _ hmem, hsince.trans heq⟩

/-- **The run.** The invariant holds after every sequence of calls. -/
theorem tracks (calls : List (Call × Int64)) (hmono : (calls.map Prod.snd).Pairwise (· ≤ ·)) :
    (after calls).Tracks := by
  induction calls using List.reverseRecOn with
  | nil => exact tracks_initial
  | append_singleton calls c ih =>
    rw [List.map_append, List.map_singleton, List.pairwise_append] at hmono
    rw [after_concat]
    refine (ih hmono.1).next c.1 fun hrunning => ?_
    obtain ⟨now, hmem, hsince⟩ := since_mem calls hrunning
    rw [hsince]
    exact Int64.le_iff_toInt_le.mp (hmono.2.2 now hmem c.2 List.mem_cons_self)

/-- The counters are wide enough, and no split that was paused while it ran has ended. -/
structure Unpaused (r : Run) : Prop where
  splits : r.account.splits < 2 ^ 64
  total : r.account.total < 2 ^ 63
  banked : ∀ e ∈ r.ended, e.2.banked = 0

/-- A counter is exact as long as it is wide enough. -/
theorem toInt_ofInt_eq_iff {n : ℤ} (h : 0 ≤ n) : (Int64.ofInt n).toInt = n ↔ n < 2 ^ 63 := by
  constructor
  · intro heq
    rw [← heq]
    exact Int64.toInt_lt _
  · exact Int64.toInt_ofInt_of_le (Int.le_trans (by decide) h)

/-- A counter is never ahead. -/
theorem toInt_ofInt_le {n : ℤ} (h : 0 ≤ n) : (Int64.ofInt n).toInt ≤ n := by
  by_cases hlt : n < 2 ^ 63
  · exact Int.le_of_eq ((toInt_ofInt_eq_iff h).mpr hlt)
  · exact Int.le_trans (Int.le_of_lt (Int64.toInt_lt _)) (Int.not_lt.mp hlt)

theorem Tracks.unpaused (h : r.Tracks) (hr : r.Accounted) : r.Unpaused where
  splits := by
    rw [← hr.splitCount]
    exact UInt64.toNat_lt _
  total := by
    rw [← hr.elapsed]
    exact Int64.toInt_lt _
  banked := fun e he => by
    obtain ⟨hbanked, hlast⟩ := h.nonneg e he
    have hvalue := hr.ended e he
    have hle := toInt_ofInt_le hlast
    rw [← h.ended e he, hvalue] at hle
    omega

theorem Tracks.accounted (h : r.Tracks) (hr : r.Unpaused) : r.Accounted := by
  have helapsed : r.watch.elapsed.toInt = r.account.total := by
    rw [h.elapsed]
    exact (toInt_ofInt_eq_iff (Int.le_trans h.banked_nonneg h.banked_le)).mpr hr.total
  have hended : ∀ e ∈ r.ended, e.1.toInt = e.2.banked + e.2.last := fun e he => by
    have hlast : e.2.last < 2 ^ 63 := by
      have hle := h.le_total e he
      have htotal := hr.total
      rw [hr.banked e he] at hle
      omega
    rw [h.ended e he, hr.banked e he, Int.zero_add]
    exact (toInt_ofInt_eq_iff (h.nonneg e he).2).mpr hlast
  refine ⟨helapsed, ?_, hended, fun hstopped => ?_⟩
  · rw [h.splitCount]
    exact UInt64.toNat_ofNat_of_lt' hr.splits
  · have htotal := h.total
    rw [h.banked_stopped hstopped, Int.add_zero] at htotal
    rw [h.returned, helapsed, ← htotal, List.map_congr_left hended]

end Run

end Stopwatch

open Stopwatch in
/-- **Accounting.** After calls in any order, the stopwatch has accounted for the time if and only
if its counters did not overflow and no split has ended that was paused after it had run. -/
theorem stopwatch_accounted_iff (calls : List (Call × Int64))
    (hmono : (calls.map Prod.snd).Pairwise (· ≤ ·)) :
    (Run.after calls).Accounted ↔ (Run.after calls).Unpaused :=
  ⟨(Run.tracks calls hmono).unpaused, (Run.tracks calls hmono).accounted⟩

open Stopwatch in
/-- A split of 3, and one that was paused at once. -/
theorem stopwatch_accounted_twice :
    (Run.after [(.start, 0), (.stop, 3), (.start, 4), (.pause, 4), (.resume, 6),
      (.stop, 9)]).Accounted :=
  (stopwatch_accounted_iff _ (by decide)).mpr ⟨by decide, by decide, by decide⟩

open Stopwatch in
/-- A split that ran for 5 and was paused then is returned as 0. -/
theorem not_stopwatch_accounted :
    ¬ (Run.after [(.start, 0), (.pause, 5), (.stop, 5)]).Accounted := by
  intro h
  have hended := h.ended (0, ⟨5, 0⟩) (by decide)
  exact absurd hended (by decide)

end Intent.Old
