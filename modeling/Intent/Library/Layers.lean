import Mathlib.Data.List.Basic
import Mathlib.Logic.Basic

/-!
# Layered maps

Maps are lists of entries, whose keys are compared by a relation `same`. Layers of maps are a list
with the farthest map first, and a nearer map masks the entries of farther ones that have the same
keys. `layeredFind` looks a key up, `visible` lists the entries that are not masked, layer by layer.

They fit together: the keys of `visible` are distinct (`visible_distinct`), a lookup finds what is
listed (`layeredFind_of_mem_visible`), and every key that it finds is listed
(`isSome_layeredFind_iff`).
-/

namespace Intent

variable {κ ν : Type} (same : κ → κ → Bool)

/-- The value of a key. -/
def assocFind (m : List (κ × ν)) (k : κ) : Option ν := (m.find? fun e => same e.1 k).map (·.2)

/-- No two entries have the same key. -/
def DistinctKeys (m : List (κ × ν)) : Prop := m.Pairwise fun e e' => same e.1 e'.1 = false

/-- The entries of a map whose keys no nearer map has. -/
def unmasked (nearer : List (List (κ × ν))) (m : List (κ × ν)) : List (κ × ν) :=
  m.filter fun e => nearer.all fun m' => (assocFind same m' e.1).isNone

/-- The entries that are not masked, the farthest layer first. -/
def visible : List (List (κ × ν)) → List (κ × ν)
  | [] => []
  | m :: nearer => unmasked same nearer m ++ visible nearer

/-- The value of a key in the nearest layer that has it. -/
def layeredFind : List (List (κ × ν)) → κ → Option ν
  | [], _ => none
  | m :: nearer, k => (layeredFind nearer k).or (assocFind same m k)

variable {same} {m m' : List (κ × ν)} {nearer layers : List (List (κ × ν))} {e : κ × ν} {k l : κ}

theorem isSome_assocFind_iff : (assocFind same m k).isSome = true ↔ ∃ e ∈ m, same e.1 k = true := by
  rw [assocFind, Option.isSome_map, List.find?_isSome]

theorem mem_of_mem_visible (h : e ∈ visible same layers) : ∃ m ∈ layers, e ∈ m := by
  induction layers with
  | nil => cases h
  | cons m nearer ih =>
    rcases List.mem_append.mp h with hfar | hnear
    · exact ⟨m, List.mem_cons_self, List.mem_of_mem_filter hfar⟩
    · obtain ⟨m', hm', he⟩ := ih hnear
      exact ⟨m', List.mem_cons_of_mem m hm', he⟩

theorem isSome_layeredFind_of_mem (hm : m ∈ layers) (h : (assocFind same m k).isSome = true) :
    (layeredFind same layers k).isSome = true := by
  induction layers with
  | nil => cases hm
  | cons m' nearer ih =>
    rw [layeredFind, Option.isSome_or, Bool.or_eq_true]
    rcases List.mem_cons.mp hm with rfl | hm'
    · exact .inr h
    · exact .inl (ih hm')

/-- A layer in front of all others. -/
theorem layeredFind_concat (layers : List (List (κ × ν))) (m : List (κ × ν)) (k : κ) :
    layeredFind same (layers ++ [m]) k = (assocFind same m k).or (layeredFind same layers k) := by
  induction layers with
  | nil => simp [layeredFind]
  | cons m' nearer ih => rw [List.cons_append, layeredFind, ih, layeredFind, Option.or_assoc]

/-- What is unmasked has no value in a nearer layer. -/
theorem mem_unmasked_iff : e ∈ unmasked same nearer m ↔
    e ∈ m ∧ layeredFind same nearer e.1 = none := by
  rw [unmasked, List.mem_filter]
  refine and_congr_right fun _ => ?_
  induction nearer with
  | nil => exact iff_of_true rfl rfl
  | cons m' nearer ih =>
    rw [List.all_cons, Bool.and_eq_true, ih, layeredFind, Option.or_eq_none_iff,
      Option.isNone_iff_eq_none]
    exact and_comm

/-- The entries that are visible behind another layer. -/
theorem visible_concat (layers : List (List (κ × ν))) (m : List (κ × ν)) :
    visible same (layers ++ [m]) =
      ((visible same layers).filter fun e => (assocFind same m e.1).isNone) ++ m := by
  induction layers with
  | nil => simp [visible, unmasked]
  | cons m' nearer ih =>
    have hmasked : unmasked same (nearer ++ [m]) m' =
        (unmasked same nearer m').filter fun e => (assocFind same m e.1).isNone := by
      simp only [unmasked, List.filter_filter, List.all_append, List.all_cons, List.all_nil,
        Bool.and_true]
      exact List.filter_congr fun e _ => Bool.and_comm _ _
    rw [List.cons_append, visible, ih, hmasked, visible, List.filter_append, List.append_assoc]

section Equivalence

variable (hsame : Equivalence fun a b => same a b = true)

include hsame

theorem same_congr (h : same k l = true) (a : κ) : same a k = same a l := by
  rw [Bool.eq_iff_iff]
  exact ⟨fun hk => hsame.trans hk h, fun hl => hsame.trans hl (hsame.symm h)⟩

theorem assocFind_congr (h : same k l = true) : assocFind same m k = assocFind same m l := by
  have hfun : (fun e : κ × ν => same e.1 k) = fun e => same e.1 l := by
    funext e
    exact same_congr hsame h e.1
  rw [assocFind, hfun, assocFind]

theorem layeredFind_congr (h : same k l = true) :
    layeredFind same layers k = layeredFind same layers l := by
  induction layers with
  | nil => rfl
  | cons m nearer ih => rw [layeredFind, layeredFind, ih, assocFind_congr hsame h]

/-- An entry of a map with distinct keys is what a lookup finds. -/
theorem assocFind_of_mem (hm : DistinctKeys same m) (he : e ∈ m) :
    assocFind same m e.1 = some e.2 := by
  induction m with
  | nil => cases he
  | cons e' m ih =>
    obtain ⟨hhead, htail⟩ := List.pairwise_cons.mp hm
    rw [assocFind, List.find?_cons]
    rcases List.mem_cons.mp he with rfl | he'
    · rw [hsame.refl e.1]
      rfl
    · rw [hhead e he']
      exact ih htail he'

theorem assocFind_perm (hm : DistinctKeys same m) (h : m.Perm m') (k : κ) :
    assocFind same m' k = assocFind same m k := by
  have hsymm : ∀ e e' : κ × ν, same e.1 e'.1 = false → same e'.1 e.1 = false := by
    intro e e' hne
    rw [← Bool.not_eq_true] at hne ⊢
    exact fun heq => hne (hsame.symm heq)
  have hm' : DistinctKeys same m' := h.pairwise hm fun {e e'} => hsymm e e'
  cases hfind : assocFind same m k with
  | some v =>
    obtain ⟨e, he, hek⟩ := isSome_assocFind_iff.mp (Option.isSome_of_eq_some hfind)
    have hv := assocFind_of_mem hsame hm he
    rw [assocFind_congr hsame hek, hfind] at hv
    rw [← assocFind_congr hsame hek, assocFind_of_mem hsame hm' (h.mem_iff.mp he), hv]
  | none =>
    rw [← Option.not_isSome_iff_eq_none, isSome_assocFind_iff] at hfind ⊢
    rintro ⟨e, he, hek⟩
    exact hfind ⟨e, h.mem_iff.mpr he, hek⟩

/-- **A lookup finds what is listed.** -/
theorem layeredFind_of_mem_visible (hlayers : ∀ m ∈ layers, DistinctKeys same m)
    (he : e ∈ visible same layers) : layeredFind same layers e.1 = some e.2 := by
  induction layers with
  | nil => cases he
  | cons m nearer ih =>
    obtain ⟨hm, hnearer⟩ := List.forall_mem_cons.mp hlayers
    rw [layeredFind]
    rcases List.mem_append.mp he with hfar | hnear
    · obtain ⟨hmem, hnone⟩ := mem_unmasked_iff.mp hfar
      rw [hnone, Option.none_or, assocFind_of_mem hsame hm hmem]
    · rw [ih hnearer hnear, Option.some_or]

/-- **What a lookup finds is listed.** -/
theorem isSome_layeredFind_iff : (layeredFind same layers k).isSome = true ↔
    ∃ e ∈ visible same layers, same e.1 k = true := by
  induction layers with
  | nil => simp [layeredFind, visible]
  | cons m nearer ih =>
    rw [layeredFind, Option.isSome_or, Bool.or_eq_true, ih, isSome_assocFind_iff, visible]
    simp only [List.mem_append, or_and_right, exists_or]
    constructor
    · rintro (hnear | ⟨e, he, hek⟩)
      · exact .inr hnear
      · -- the entry is listed, or masked by one that is
        by_cases hmask : layeredFind same nearer e.1 = none
        · exact .inl ⟨e, mem_unmasked_iff.mpr ⟨he, hmask⟩, hek⟩
        · refine .inr (ih.mp ?_)
          rwa [← layeredFind_congr hsame hek, Option.isSome_iff_ne_none]
    · rintro (⟨e, he, hek⟩ | hnear)
      · exact .inr ⟨e, (mem_unmasked_iff.mp he).1, hek⟩
      · exact .inl hnear

/-- **No key is listed twice.** -/
theorem visible_distinct (hlayers : ∀ m ∈ layers, DistinctKeys same m) :
    DistinctKeys same (visible same layers) := by
  induction layers with
  | nil => exact List.Pairwise.nil
  | cons m nearer ih =>
    obtain ⟨hm, hnearer⟩ := List.forall_mem_cons.mp hlayers
    refine List.pairwise_append.mpr ⟨hm.filter _, ih hnearer, fun e he e' he' => ?_⟩
    obtain ⟨-, hnone⟩ := mem_unmasked_iff.mp he
    by_contra hne
    have hsome : (layeredFind same nearer e.1).isSome = true :=
      (isSome_layeredFind_iff hsame).mpr ⟨e', he', hsame.symm (Bool.not_eq_false _ ▸ hne)⟩
    rw [hnone] at hsome
    exact Bool.false_ne_true hsome

end Equivalence

end Intent
