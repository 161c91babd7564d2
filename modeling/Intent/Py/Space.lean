import Mathlib.Algebra.Group.Nat.Defs
import Mathlib.Data.List.Induction
import Mathlib.Data.List.Infix
import Mathlib.Tactic.Common

/-!
# The nearest space

`intent/space.py`: a space is a folder with two folders in it, and `find_space_for_path` goes up
from a path to the nearest one. What `os.path` does is a parameter; `_normpath` cleans up behind it.

`findSpaceForPath_nearest` says that the walk comes to the paths to the folders around, from the
innermost one on. The root is not among them: its path is empty then.
-/

namespace Intent.Py

/-- A string. -/
abbrev Str : Type := List Char

/-! ### Paths -/

/-- The functions of `os.path` that `_normpath` calls. -/
structure OsPath where
  expanduser : Str → Str
  abspath : Str → Str
  normpath : Str → Str

/-- `p.replace('//', '/')`. -/
def replaceDoubleSlash : Str → Str
  | [] => []
  | [c] => [c]
  | c :: d :: s =>
    if c = '/' ∧ d = '/' then '/' :: replaceDoubleSlash s else c :: replaceDoubleSlash (d :: s)

theorem length_replaceDoubleSlash_le (p : Str) : (replaceDoubleSlash p).length ≤ p.length := by
  fun_induction replaceDoubleSlash p with
  | case1 => exact le_rfl
  | case2 c => exact le_rfl
  | case3 c d s _ ih =>
    simp only [List.length_cons]
    omega
  | case4 c d s _ ih => exact Nat.succ_le_succ ih

theorem length_replaceDoubleSlash_lt {p : Str} (h : ['/', '/'] <:+: p) :
    (replaceDoubleSlash p).length < p.length := by
  fun_induction replaceDoubleSlash p with
  | case1 => exact absurd h (by decide)
  | case2 c =>
    have hlen := h.length_le
    exact absurd hlen (by simp)
  | case3 c d s _ ih =>
    have hle := length_replaceDoubleSlash_le s
    simp only [List.length_cons]
    omega
  | case4 c d s hne ih =>
    refine Nat.succ_lt_succ (ih ?_)
    rcases List.infix_cons_iff.mp h with hstart | htail
    · rw [List.cons_prefix_cons, List.cons_prefix_cons] at hstart
      exact absurd ⟨hstart.1.symm, hstart.2.1.symm⟩ hne
    · exact htail

/-- `while '//' in p: p = p.replace('//', '/')`. -/
def cleanSlashes (p : Str) : Str :=
  if ['/', '/'] <:+: p then cleanSlashes (replaceDoubleSlash p) else p
termination_by p.length
decreasing_by exact length_replaceDoubleSlash_lt ‹_›

/-- `_normpath`; `none` is the `IndexError` for an empty string. -/
def normpath (os : OsPath) (path : Str) : Option Str :=
  let p := os.normpath (os.abspath (os.expanduser path))
  let p := cleanSlashes (p.map fun c => if c = '\\' then '/' else c)
  p.getLast?.map fun c => if c = '/' then p.dropLast else p

/-- `path.rfind(c)`, with `none` for -1. -/
def rfind (c : Char) : Str → Option ℕ
  | [] => none
  | d :: s =>
    match rfind c s with
    | some i => some (i + 1)
    | none => if d = c then some 0 else none

theorem rfind_lt {c : Char} {s : Str} {i : ℕ} (h : rfind c s = some i) : i < s.length := by
  induction s generalizing i with
  | nil => cases h
  | cons d s ih =>
    rw [rfind] at h
    cases hs : rfind c s with
    | some j =>
      rw [hs] at h
      obtain rfl := Option.some.inj h
      exact Nat.succ_lt_succ (ih hs)
    | none =>
      rw [hs] at h
      dsimp only at h
      split_ifs at h
      obtain rfl := Option.some.inj h
      exact Nat.succ_pos _

/-! ### The search -/

/-- The loop of `find_space_for_path`. -/
def findSpaceLoop (isSpace : Str → Bool) (path : Str) : Option Str :=
  if path = [] then none
  else if isSpace path then some path
  else
    match _h : rfind '/' path with
    | none => none
    | some i => findSpaceLoop isSpace (path.take i)
termination_by path.length
decreasing_by
  rw [List.length_take]
  exact (Nat.min_le_left _ _).trans_lt (rfind_lt ‹_›)

/-- `find_space_for_path`, which raises with `_normpath` only. -/
def findSpaceForPath (os : OsPath) (isSpace : Str → Bool) (path : Str) : Option (Option Str) :=
  (normpath os path).map (findSpaceLoop isSpace)

/-- `os.path.join`, for a name that is no absolute path. -/
def join (path name : Str) : Str :=
  if path = [] ∨ path.getLast? = some '/' then path ++ name else path ++ '/' :: name

/-- `OUTDIR_NAME`. -/
def outdirName : Str := ['.', 'o', 'u', 't']

/-- `ENVDIR_NAME`. -/
def envdirName : Str := ['.', 'e', 'n', 'v']

/-- `is_space`, as a truth value. -/
def isSpace (isdir : Str → Bool) (path : Str) : Bool :=
  isdir path && (isdir (join path outdirName) && isdir (join path envdirName))

/-! ### Components -/

/-- The path that is made of these components. -/
def pathOf (comps : List Str) : Str := comps.flatMap fun c => '/' :: c

/-- A component of a path. -/
def IsComponent (c : Str) : Prop := c ≠ [] ∧ '/' ∉ c

section Components

variable {comps : List Str} {c p q : Str} {x : Char}

theorem pathOf_concat (comps : List Str) (c : Str) :
    pathOf (comps ++ [c]) = pathOf comps ++ '/' :: c := by
  rw [pathOf, List.flatMap_append, List.flatMap_singleton]
  rfl

/-- A path does not end with a slash. -/
theorem getLast?_pathOf (hall : ∀ c ∈ comps, IsComponent c) (h : (pathOf comps).getLast? = some x) :
    x ≠ '/' := by
  cases comps using List.reverseRecOn with
  | nil => cases h
  | append_singleton comps c =>
    obtain ⟨hne, hslash⟩ := hall c (List.mem_append_right _ List.mem_cons_self)
    rw [pathOf_concat, List.getLast?_append, List.getLast?_cons, Option.some_or] at h
    rintro rfl
    have hlast := Option.some.inj h
    rw [List.getLast?_eq_getLast_of_ne_nil hne, Option.getD_some] at hlast
    exact hslash (hlast ▸ List.getLast_mem hne)

/-- **Components.** A string that begins with a slash, and has no two slashes in a row, is a path
that is made of components, perhaps with a slash at its end. -/
theorem exists_components (hhead : p.head? = some '/') (hclean : ¬ ['/', '/'] <:+: p) :
    ∃ comps, (∀ c ∈ comps, IsComponent c) ∧ (p = pathOf comps ∨ p = pathOf comps ++ ['/']) := by
  induction p using List.reverseRecOn with
  | nil => cases hhead
  | append_singleton q x ih =>
    by_cases hq : q = []
    · subst hq
      obtain rfl := Option.some.inj hhead
      exact ⟨[], List.forall_mem_nil _, .inr rfl⟩
    have hheadq : q.head? = some '/' := by
      rwa [List.head?_append_of_ne_nil q hq] at hhead
    have hcleanq : ¬ ['/', '/'] <:+: q := fun h =>
      hclean (h.trans (List.prefix_append q [x]).isInfix)
    obtain ⟨comps, hall, rfl | rfl⟩ := ih hheadq hcleanq
    · by_cases hx : x = '/'
      · exact ⟨comps, hall, .inr (by rw [hx])⟩
      -- the character goes on with the last component
      cases comps using List.reverseRecOn with
      | nil => exact absurd rfl hq
      | append_singleton comps c =>
        obtain ⟨hne, hslash⟩ := hall c (List.mem_append_right _ List.mem_cons_self)
        refine ⟨comps ++ [c ++ [x]], fun d hd => ?_, .inl ?_⟩
        · rcases List.mem_append.mp hd with hd | hd
          · exact hall d (List.mem_append_left _ hd)
          · obtain rfl := List.mem_singleton.mp hd
            refine ⟨List.append_ne_nil_of_left_ne_nil hne _, fun hmem => ?_⟩
            rcases List.mem_append.mp hmem with hmem | hmem
            · exact hslash hmem
            · exact hx (List.mem_singleton.mp hmem).symm
        · rw [pathOf_concat, pathOf_concat, List.append_assoc, List.cons_append]
    · -- the character begins a component
      have hx : x ≠ '/' := by
        rintro rfl
        refine hclean ⟨pathOf comps, [], ?_⟩
        rw [List.append_nil, List.append_assoc]
        rfl
      refine ⟨comps ++ [[x]], fun d hd => ?_, .inl ?_⟩
      · rcases List.mem_append.mp hd with hd | hd
        · exact hall d hd
        · obtain rfl := List.mem_singleton.mp hd
          exact ⟨List.cons_ne_nil _ _, fun hmem => hx (List.mem_singleton.mp hmem).symm⟩
      · rw [pathOf_concat, List.append_assoc]
        rfl

theorem head?_replaceDoubleSlash (p : Str) : (replaceDoubleSlash p).head? = p.head? := by
  cases p with
  | nil => rfl
  | cons c s =>
    cases s with
    | nil => rfl
    | cons d s =>
      rw [replaceDoubleSlash]
      split_ifs with h
      · rw [h.1]
        rfl
      · rfl

theorem cleanSlashes_spec (p : Str) :
    ¬ ['/', '/'] <:+: cleanSlashes p ∧ (cleanSlashes p).head? = p.head? := by
  fun_induction cleanSlashes p with
  | case1 p _ ih => exact ⟨ih.1, ih.2.trans (head?_replaceDoubleSlash p)⟩
  | case2 p hclean => exact ⟨hclean, rfl⟩

/-- **`_normpath`** returns a path that is made of components, if `os.path` gives it an absolute
one. -/
theorem exists_normpath (os : OsPath) (path : Str)
    (habs : (os.normpath (os.abspath (os.expanduser path))).head? = some '/') :
    ∃ comps, (∀ c ∈ comps, IsComponent c) ∧ normpath os path = some (pathOf comps) := by
  rw [normpath]
  generalize os.normpath (os.abspath (os.expanduser path)) = p at habs ⊢
  obtain ⟨hclean, hhead⟩ := cleanSlashes_spec (p.map fun c => if c = '\\' then '/' else c)
  rw [List.head?_map, habs, Option.map_some, if_neg (by decide)] at hhead
  generalize cleanSlashes (p.map fun c => if c = '\\' then '/' else c) = r at hclean hhead ⊢
  obtain ⟨comps, hall, rfl | rfl⟩ := exists_components hhead hclean
  · refine ⟨comps, hall, ?_⟩
    cases hlast : (pathOf comps).getLast? with
    | none =>
      rw [List.getLast?_eq_none_iff.mp hlast] at hhead
      cases hhead
    | some x => rw [Option.map_some, if_neg (getLast?_pathOf hall hlast)]
  · refine ⟨comps, hall, ?_⟩
    rw [List.getLast?_concat, Option.map_some, if_pos rfl, List.dropLast_concat]

end Components

/-! ### The nearest space -/

/-- `q` is a space among the path and the folders around it, and the innermost one. -/
def Nearest (isSpace : Str → Bool) (comps : List Str) (q : Str) : Prop :=
  ∃ k, 0 < k ∧ k ≤ comps.length ∧ q = pathOf (comps.take k) ∧ isSpace q = true ∧
    ∀ j, k < j → j ≤ comps.length → isSpace (pathOf (comps.take j)) = false

section Search

variable {isSpace : Str → Bool} {comps : List Str} {c s t q : Str}

theorem rfind_append (h : '/' ∉ t) : rfind '/' (s ++ '/' :: t) = some s.length := by
  have hnone : rfind '/' t = none := by
    induction t with
    | nil => rfl
    | cons d t ih =>
      obtain ⟨hd, ht⟩ := List.ne_and_not_mem_of_not_mem_cons h
      rw [rfind, ih ht]
      exact if_neg hd.symm
  induction s with
  | nil =>
    rw [List.nil_append, rfind, hnone]
    exact if_pos rfl
  | cons d s ih =>
    rw [List.cons_append, rfind, ih]
    rfl

theorem findSpaceLoop_nil (isSpace : Str → Bool) : findSpaceLoop isSpace [] = none := by
  rw [findSpaceLoop, if_pos rfl]

/-- **One round**: the last component goes. -/
theorem findSpaceLoop_concat (isSpace : Str → Bool) (comps : List Str) (hc : IsComponent c) :
    findSpaceLoop isSpace (pathOf (comps ++ [c])) =
      if isSpace (pathOf (comps ++ [c])) then some (pathOf (comps ++ [c]))
      else findSpaceLoop isSpace (pathOf comps) := by
  have hne : pathOf (comps ++ [c]) ≠ [] := by
    rw [pathOf_concat]
    exact List.append_ne_nil_of_right_ne_nil _ (List.cons_ne_nil _ _)
  rw [findSpaceLoop, if_neg hne]
  refine if_congr Iff.rfl rfl ?_
  split
  · next hnone =>
    rw [pathOf_concat, rfind_append hc.2] at hnone
    cases hnone
  · next i hi =>
    rw [pathOf_concat, rfind_append hc.2] at hi
    obtain rfl := Option.some.inj hi
    rw [pathOf_concat, List.take_left]

/-- What is nearest, with one more component. -/
theorem nearest_concat (isSpace : Str → Bool) (comps : List Str) (c q : Str) :
    Nearest isSpace (comps ++ [c]) q ↔
      q = pathOf (comps ++ [c]) ∧ isSpace q = true ∨
        isSpace (pathOf (comps ++ [c])) = false ∧ Nearest isSpace comps q := by
  have hlen : (comps ++ [c]).length = comps.length + 1 := List.length_append
  have hall : (comps ++ [c]).take (comps.length + 1) = comps ++ [c] :=
    List.take_of_length_le hlen.le
  have htake : ∀ {k}, k ≤ comps.length → (comps ++ [c]).take k = comps.take k := fun hk =>
    List.take_append_of_le_length hk
  constructor
  · rintro ⟨k, hpos, hk, hq, hspace, hnone⟩
    rw [hlen] at hk hnone
    -- the nearest one is the whole path, or all of it is in the folders around
    rcases Nat.eq_or_lt_of_le hk with rfl | hlt
    · exact .inl ⟨by rw [hq, hall], hspace⟩
    · have hlast := hnone _ hlt le_rfl
      rw [hall] at hlast
      refine .inr ⟨hlast, k, hpos, Nat.le_of_lt_succ hlt, ?_, hspace, fun j hj hle => ?_⟩
      · rw [hq, htake (Nat.le_of_lt_succ hlt)]
      · rw [← htake hle]
        exact hnone j hj (Nat.le_succ_of_le hle)
  · rintro (⟨rfl, hspace⟩ | ⟨hlast, k, hpos, hk, hq, hspace, hnone⟩)
    · refine ⟨comps.length + 1, Nat.succ_pos _, hlen.ge, by rw [hall], hspace, fun j hj hle => ?_⟩
      rw [hlen] at hle
      exact absurd hj (Nat.not_lt.mpr hle)
    · refine ⟨k, hpos, hlen ▸ Nat.le_succ_of_le hk, by rw [hq, htake hk], hspace,
        fun j hj hle => ?_⟩
      rw [hlen] at hle
      rcases Nat.eq_or_lt_of_le hle with rfl | hlt
      · rw [hall, hlast]
      · rw [htake (Nat.le_of_lt_succ hlt)]
        exact hnone j hj (Nat.le_of_lt_succ hlt)

/-- **The loop** returns the nearest space. -/
theorem findSpaceLoop_eq_some_iff (isSpace : Str → Bool) (hall : ∀ c ∈ comps, IsComponent c)
    (q : Str) : findSpaceLoop isSpace (pathOf comps) = some q ↔ Nearest isSpace comps q := by
  induction comps using List.reverseRecOn with
  | nil =>
    refine iff_of_false ?_ ?_
    · rw [pathOf, List.flatMap_nil, findSpaceLoop_nil]
      exact fun h => by cases h
    · rintro ⟨k, hpos, hk, -⟩
      exact absurd hpos (Nat.not_lt.mpr hk)
  | append_singleton comps c ih =>
    have hcomps : ∀ d ∈ comps, IsComponent d := fun d hd => hall d (List.mem_append_left _ hd)
    have hc := hall c (List.mem_append_right _ List.mem_cons_self)
    rw [findSpaceLoop_concat isSpace comps hc, nearest_concat]
    by_cases hspace : isSpace (pathOf (comps ++ [c])) = true
    · rw [if_pos hspace, Option.some.injEq, hspace]
      constructor
      · rintro rfl
        exact .inl ⟨rfl, hspace⟩
      · rintro (⟨rfl, -⟩ | ⟨hfalse, -⟩)
        · rfl
        · cases hfalse
    · rw [if_neg hspace, ih hcomps]
      constructor
      · exact fun h => .inr ⟨Bool.eq_false_iff.mpr hspace, h⟩
      · rintro (⟨rfl, htrue⟩ | ⟨-, h⟩)
        · exact absurd htrue hspace
        · exact h

/-- Where there is a space, there is a nearest one. -/
theorem exists_nearest {k : ℕ} (hpos : 0 < k) (hk : k ≤ comps.length)
    (h : isSpace (pathOf (comps.take k)) = true) : ∃ q, Nearest isSpace comps q := by
  induction comps using List.reverseRecOn with
  | nil => exact absurd hpos (Nat.not_lt.mpr hk)
  | append_singleton comps c ih =>
    by_cases hspace : isSpace (pathOf (comps ++ [c])) = true
    · exact ⟨_, (nearest_concat isSpace comps c _).mpr (.inl ⟨rfl, hspace⟩)⟩
    have hlast := Bool.eq_false_iff.mpr hspace
    have hlen : (comps ++ [c]).length = comps.length + 1 := List.length_append
    rw [hlen] at hk
    rcases Nat.eq_or_lt_of_le hk with rfl | hlt
    · rw [List.take_of_length_le (Nat.le_of_eq hlen)] at h
      exact absurd h hspace
    · rw [List.take_append_of_le_length (Nat.le_of_lt_succ hlt)] at h
      obtain ⟨q, hq⟩ := ih (Nat.le_of_lt_succ hlt) h
      exact ⟨q, (nearest_concat isSpace comps c q).mpr (.inr ⟨hlast, hq⟩)⟩

end Search

/-- **The nearest space.** `find_space_for_path` returns the innermost space among a path and the
folders around it, and `None` if and only if there is none. -/
theorem findSpaceForPath_nearest (os : OsPath) (isSpace : Str → Bool) (path : Str)
    (habs : (os.normpath (os.abspath (os.expanduser path))).head? = some '/') :
    ∃ comps, (∀ c ∈ comps, IsComponent c) ∧ normpath os path = some (pathOf comps) ∧
      ∃ found, findSpaceForPath os isSpace path = some found ∧
        (∀ q, found = some q ↔ Nearest isSpace comps q) ∧
        (found = none ↔
          ∀ k, 0 < k → k ≤ comps.length → isSpace (pathOf (comps.take k)) = false) := by
  obtain ⟨comps, hall, hnorm⟩ := exists_normpath os path habs
  have hsome := findSpaceLoop_eq_some_iff isSpace hall
  refine ⟨comps, hall, hnorm, findSpaceLoop isSpace (pathOf comps), ?_, hsome, ?_⟩
  · rw [findSpaceForPath, hnorm, Option.map_some]
  constructor
  · intro hnone k hpos hk
    by_contra htrue
    obtain ⟨q, hq⟩ := exists_nearest hpos hk (by rwa [Bool.not_eq_false] at htrue)
    have hfound := (hsome q).mpr hq
    rw [hnone] at hfound
    cases hfound
  · intro hfalse
    refine Option.eq_none_iff_forall_ne_some.mpr fun q hq => ?_
    obtain ⟨k, hpos, hk, rfl, htrue, -⟩ := (hsome _).mp hq
    rw [hfalse k hpos hk] at htrue
    cases htrue

/-- The space around `/a/b` is `/a`. -/
theorem findSpaceForPath_nearest_parent :
    ∃ comps, (∀ c ∈ comps, IsComponent c) ∧
      normpath ⟨id, id, id⟩ "/a/b".toList = some (pathOf comps) ∧
      ∃ found, findSpaceForPath ⟨id, id, id⟩ (· == "/a".toList) "/a/b".toList = some found ∧
        (∀ q, found = some q ↔ Nearest (· == "/a".toList) comps q) ∧
        (found = none ↔
          ∀ k, 0 < k → k ≤ comps.length → (pathOf (comps.take k) == "/a".toList) = false) :=
  findSpaceForPath_nearest ⟨id, id, id⟩ (· == "/a".toList) "/a/b".toList (by decide)

end Intent.Py
