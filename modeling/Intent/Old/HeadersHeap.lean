import Intent.Library.Chain
import Intent.Old.Headers

/-!
# The heap of headers

`Sound h held` is the invariant of the heap between the steps of an operation: every counter is
the number of references to its object, from the heap and from outside, nothing refers to an
object that is gone, and every walk along the layers ends. A reference that an operation has
released or not yet stored is one of those held from outside, so that each step has a rule of its
own: `Sound.push`, `Sound.addRef`, `Sound.releaseRef`, `Sound.setDefaults`.

`Sound.getDefaultsFrom` puts them together. The old layer is released while the object still
points to it, and `releaseRef_setDefaults` says that this makes no difference.
-/

namespace Intent.Old.Headers

/-! ### Sound heaps -/

namespace Heap

/-- The number of pointers to `k` on the heap. -/
def pointers (h : Heap) (k : ℕ) : ℕ :=
  List.countP (fun o => (o.bind (·.defaults)) = some k) h

/-- What the heap is to be like, where `held k` references to the object `k` are held from
outside: each counter is the number of references, there is an object for each of them, and the
walk along the layers ends. -/
structure Sound (h : Heap) (held : ℕ → ℕ) : Prop where
  counted : ∀ i x, h.at? i = some x → x.refCount = held i + h.pointers i
  allocated : ∀ i, 0 < held i → ∃ x, h.at? i = some x
  ends : ∀ i x, h.at? i = some x → ∃ n, EndsIn h.next n (some i)

section Sound

variable {h : Heap} {held held' : ℕ → ℕ} {i j k : ℕ} {x y : Impl}

theorem next_of_at? (hx : h.at? i = some x) : h.next i = some x.defaults := by
  rw [next, hx]
  rfl

theorem exists_at?_of_next {p : Option ℕ} (hp : h.next i = some p) :
    ∃ x, h.at? i = some x ∧ x.defaults = p := Option.map_eq_some_iff.mp hp

theorem next_set (hx : h.at? i = some x) (o : Option Impl) (k : ℕ) :
    next (h.set i o) k = if k = i then o.map (·.defaults) else h.next k := by
  rw [next, at?_set hx, apply_ite (Option.map _)]
  rfl

theorem pointers_set (hx : h.at? i = some x) (o : Option Impl) (k : ℕ) :
    pointers (h.set i o) k + (if x.defaults = some k then 1 else 0) =
      h.pointers k + if o.bind (·.defaults) = some k then 1 else 0 := by
  simpa [pointers] using
    countP_set_add (getElem?_of_at? hx) o fun o => (o.bind (·.defaults)) = some k

/-- Something on the heap points to `k`. -/
theorem pointers_pos_of_next (hi : h.next i = some (some k)) : 0 < h.pointers k := by
  obtain ⟨x, hx, hd⟩ := exists_at?_of_next hi
  refine List.countP_pos_iff.mpr ⟨some x, ?_, by simpa using hd⟩
  exact List.mem_of_getElem? (getElem?_of_at? hx)

theorem exists_next_of_pointers_pos (hk : 0 < h.pointers k) :
    ∃ i, h.next i = some (some k) := by
  obtain ⟨o, ho, hd⟩ := List.countP_pos_iff.mp hk
  obtain ⟨x, rfl, hx⟩ := Option.bind_eq_some_iff.mp (of_decide_eq_true hd)
  obtain ⟨i, hi⟩ := List.getElem?_of_mem ho
  refine ⟨i, ?_⟩
  rw [next, at?, hi, ← hx]
  rfl

/-- The next layer of an object is there. -/
theorem Sound.exists_next (hs : h.Sound held) (hx : h.at? i = some x)
    (hd : x.defaults = some k) : ∃ z, h.at? k = some z := by
  obtain ⟨n, hn⟩ := hs.ends i x hx
  cases hn with
  | node hnext hrest =>
    rw [next_of_at? hx, hd] at hnext
    obtain rfl := Option.some.inj hnext
    obtain ⟨p, hp⟩ := hrest.exists_node
    obtain ⟨z, hz, -⟩ := exists_at?_of_next hp
    exact ⟨z, hz⟩

theorem at?_length (h : Heap) : h.at? h.length = none := by
  rw [at?, List.getElem?_eq_none le_rfl]
  rfl

theorem at?_push (h : Heap) (x : Impl) (k : ℕ) :
    at? (h ++ [some x]) k = if k = h.length then some x else h.at? k := by
  rw [at?, List.getElem?_append]
  split_ifs with hlt heq heq
  · omega
  · rfl
  · rw [heq, Nat.sub_self]
    rfl
  · rw [List.getElem?_eq_none (by simp; omega), at?, List.getElem?_eq_none (Nat.le_of_not_lt hlt)]

/-- Nothing points to an address that is not in use. -/
theorem Sound.next_ne_length (hs : h.Sound held) (k : ℕ) : h.next k ≠ some (some h.length) := by
  intro hk
  obtain ⟨x, hx, hd⟩ := exists_at?_of_next hk
  obtain ⟨z, hz⟩ := hs.exists_next hx hd
  exact absurd (h.at?_length.symm.trans hz) (by simp)

/-- **A new object**, at an address that is not in use, with a reference held to it. -/
theorem Sound.push (hs : h.Sound held)
    (hheld : ∀ k, held' k = held k + if k = h.length then 1 else 0) :
    Sound (h ++ [some ⟨1, [], none⟩]) held' := by
  have hfree : held h.length = 0 := by
    by_contra hne
    obtain ⟨x, hx⟩ := hs.allocated _ (Nat.pos_of_ne_zero hne)
    exact absurd (h.at?_length.symm.trans hx) (by simp)
  have hzero : h.pointers h.length = 0 := by
    by_contra hne
    obtain ⟨c, hc⟩ := exists_next_of_pointers_pos (Nat.pos_of_ne_zero hne)
    exact hs.next_ne_length c hc
  have hpointers : ∀ k, pointers (h ++ [some ⟨1, [], none⟩]) k = h.pointers k := by
    intro k
    simp [pointers, List.countP_append]
  constructor
  · intro k x hx
    rw [hpointers, hheld]
    rw [at?_push] at hx
    split_ifs at hx ⊢ with hk
    · obtain rfl := Option.some.inj hx
      rw [hk, hzero, hfree]
    · exact hs.counted k x hx
  · intro k hk
    rw [hheld] at hk
    rw [at?_push]
    split_ifs at hk ⊢ with hlen
    · exact ⟨_, rfl⟩
    · exact hs.allocated k hk
  · intro k x hx
    rw [at?_push] at hx
    split_ifs at hx with hk
    · refine ⟨1, .node (p := none) ?_ .null⟩
      rw [next, at?_push, if_pos hk]
      rfl
    · obtain ⟨n, hn⟩ := hs.ends k x hx
      refine ⟨n, hn.erase (b := h.length) (fun c hc => ?_) hs.next_ne_length (by simpa using hk)⟩
      rw [next, at?_push, if_neg hc]
      rfl

/-- A change of the counter. -/
theorem Sound.set_refCount (hs : h.Sound held) (hx : h.at? i = some x)
    (hy : y.defaults = x.defaults) (hother : ∀ k, k ≠ i → held' k = held k)
    (hcount : y.refCount = held' i + h.pointers i) :
    Sound (h.set i (some y)) held' := by
  have hnext : next (h.set i (some y)) = h.next := by
    funext k
    rw [next_set hx]
    split_ifs with hk
    · rw [hk, next_of_at? hx, ← hy]
      rfl
    · rfl
  have hpointers : ∀ k, pointers (h.set i (some y)) k = h.pointers k := by
    intro k
    have hset := pointers_set hx (some y) k
    rw [Option.bind_some, hy] at hset
    omega
  constructor
  · intro k z hz
    rw [hpointers]
    rw [at?_set hx] at hz
    split_ifs at hz with hk
    · obtain rfl := Option.some.inj hz
      rw [hk, hcount]
    · rw [hs.counted k z hz, hother k hk]
  · intro k hk
    rw [at?_set hx]
    split_ifs with hki
    · exact ⟨y, rfl⟩
    · exact hs.allocated k (hother k hki ▸ hk)
  · intro k z hz
    rw [hnext]
    rw [at?_set hx] at hz
    split_ifs at hz with hk
    · exact hk ▸ hs.ends i x hx
    · exact hs.ends k z hz

/-- A deletion: the last reference to the object goes, and its own is held in the meantime. -/
theorem Sound.erase (hs : h.Sound held') (hx : h.at? i = some x) (hone : x.refCount = 1)
    (hheld : ∀ k, held' k = held k + if k = i then 1 else 0) :
    Sound (h.set i none) fun k => held k + if x.defaults = some k then 1 else 0 := by
  have hcount := hs.counted i x hx
  have hi := hheld i
  rw [if_pos rfl] at hi
  have hpointers : h.pointers i = 0 := by omega
  have hnone : ∀ k, h.next k ≠ some (some i) := by
    intro k hk
    have := pointers_pos_of_next hk
    omega
  have hset := pointers_set hx none
  simp only [Option.bind_none, reduceCtorEq, if_false, Nat.add_zero] at hset
  constructor
  · intro k z hz
    rw [at?_set hx] at hz
    split_ifs at hz with hk
    have hz' := hs.counted k z hz
    have hk' := hheld k
    rw [if_neg hk] at hk'
    have := hset k
    omega
  · intro k hk
    -- nothing is held of the object, which does not point to itself
    have hki : k ≠ i := by
      rintro rfl
      have hself : x.defaults ≠ some k := fun heq => hnone k (by rw [next_of_at? hx, heq])
      rw [if_neg hself] at hk
      omega
    rw [at?_set hx, if_neg hki]
    by_cases hd : x.defaults = some k
    · exact hs.exists_next hx hd
    · rw [if_neg hd] at hk
      exact hs.allocated k (by rw [hheld k]; omega)
  · intro k z hz
    rw [at?_set hx] at hz
    split_ifs at hz with hk
    obtain ⟨n, hn⟩ := hs.ends k z hz
    refine ⟨n, hn.erase (b := i) (fun c hc => ?_) hnone (by simpa using hk)⟩
    rw [next_set hx, if_neg hc]

theorem releaseRef_of_none (hx : h.at? i = none) : h.releaseRef i = h := by
  rw [Heap.releaseRef]
  split
  · rfl
  · next hx' => exact absurd (hx.symm.trans hx') (by simp)

theorem releaseRef_of_ne_one (hx : h.at? i = some x) (hcount : x.refCount ≠ 1) :
    h.releaseRef i = h.set i (some { x with refCount := x.refCount - 1 }) := by
  rw [Heap.releaseRef]
  split
  · next hx' => exact absurd (hx.symm.trans hx') (by simp)
  · next y hx' =>
    obtain rfl := Option.some.inj (hx.symm.trans hx')
    rw [if_neg hcount]

theorem releaseRef_of_one (hx : h.at? i = some x) (hcount : x.refCount = 1) :
    h.releaseRef i = x.defaults.elim (h.set i none) fun d => releaseRef (h.set i none) d := by
  rw [Heap.releaseRef]
  split
  · next hx' => exact absurd (hx.symm.trans hx') (by simp)
  · next y hx' =>
    obtain rfl := Option.some.inj (hx.symm.trans hx')
    rw [if_pos hcount]
    split
    · next hd => rw [hd, Option.elim_none]
    · next hd => rw [hd, Option.elim_some]

/-- **`release_ref`** on a sound heap: the reference is given up, and every object that is not
referred to then is gone. -/
theorem Sound.releaseRef (hs : h.Sound held')
    (hheld : ∀ k, held' k = held k + if k = i then 1 else 0) : Sound (h.releaseRef i) held := by
  induction h, i using Heap.releaseRef.induct generalizing held held' with
  | case1 h i hx =>
    obtain ⟨x, hx'⟩ := hs.allocated i (by rw [hheld i, if_pos rfl]; omega)
    exact absurd (hx.symm.trans hx') (by simp)
  | case2 h i x hx hcount hd =>
    have herase := hs.erase hx hcount hheld
    rw [releaseRef_of_one hx hcount, hd, Option.elim_none]
    simpa [hd] using herase
  | case3 h i x hx hcount d hd ih =>
    have herase := hs.erase hx hcount hheld
    rw [releaseRef_of_one hx hcount, hd, Option.elim_some]
    refine ih herase fun k => ?_
    simp only [hd, Option.some.injEq, eq_comm]
  | case4 h i x hx hcount =>
    have hold := hs.counted i x hx
    have hi := hheld i
    rw [if_pos rfl] at hi
    rw [releaseRef_of_ne_one hx hcount]
    refine hs.set_refCount hx rfl (fun k hk => ?_) ?_
    · rw [hheld k, if_neg hk, Nat.add_zero]
    · change x.refCount - 1 = _
      omega

/-- What is left of the heap points where it did. -/
theorem at?_releaseRef (hy : (h.releaseRef i).at? k = some y) :
    ∃ x, h.at? k = some x ∧ x.defaults = y.defaults := by
  induction h, i using Heap.releaseRef.induct with
  | case1 h i hx =>
    rw [releaseRef_of_none hx] at hy
    exact ⟨y, hy, rfl⟩
  | case2 h i x hx hcount hd =>
    rw [releaseRef_of_one hx hcount, hd, Option.elim_none, at?_set hx] at hy
    split_ifs at hy
    exact ⟨y, hy, rfl⟩
  | case3 h i x hx hcount d hd ih =>
    rw [releaseRef_of_one hx hcount, hd, Option.elim_some] at hy
    obtain ⟨z, hz, hdefaults⟩ := ih hy
    rw [at?_set hx] at hz
    split_ifs at hz
    exact ⟨z, hz, hdefaults⟩
  | case4 h i x hx hcount =>
    rw [releaseRef_of_ne_one hx hcount, at?_set hx] at hy
    split_ifs at hy with hk
    · obtain rfl := Option.some.inj hy
      exact ⟨x, hk ▸ hx, rfl⟩
    · exact ⟨y, hy, rfl⟩

theorem leads_of_leads_releaseRef (hleads : Leads (h.releaseRef i).next j k) :
    Leads h.next j k := by
  refine hleads.mono fun a c hac => ?_
  obtain ⟨y, hy, hd⟩ := exists_at?_of_next hac
  obtain ⟨x, hx, hdefaults⟩ := at?_releaseRef hy
  rw [next_of_at? hx, hdefaults, hd]

theorem modify_of_at? (hx : h.at? i = some x) (f : Impl → Impl) :
    h.modify i f = h.set i (some (f x)) := by
  rw [modify, hx]

theorem at?_of_at?_set_none (hx : h.at? j = some x) (hy : at? (h.set j none) i = some y) :
    i ≠ j ∧ h.at? i = some y := by
  rw [at?_set hx] at hy
  split_ifs at hy with hij
  exact ⟨hij, hy⟩

theorem setDefaults_set_none {p : Option ℕ} (hx : h.at? j = some x) (hij : i ≠ j) :
    List.set (h.setDefaults i p) j none = Heap.setDefaults (h.set j none) i p := by
  have hat : at? (h.set j none) i = h.at? i := by rw [at?_set hx, if_neg hij]
  cases hy : h.at? i with
  | none => rw [Heap.setDefaults, Heap.setDefaults, modify, modify, hat, hy]
  | some y =>
    rw [Heap.setDefaults, Heap.setDefaults, modify_of_at? hy, modify_of_at? (hat.trans hy)]
    exact List.set_comm _ _ hij

/-- **`add_ref`** on a sound heap. -/
theorem Sound.addRef (hs : h.Sound held) (hx : h.at? i = some x)
    (hheld : ∀ k, held' k = held k + if k = i then 1 else 0) : Sound (h.addRef i) held' := by
  have hold := hs.counted i x hx
  have hi := hheld i
  rw [if_pos rfl] at hi
  rw [Heap.addRef, modify_of_at? hx]
  refine hs.set_refCount hx rfl (fun k hk => ?_) ?_
  · rw [hheld k, if_neg hk, Nat.add_zero]
  · change x.refCount + 1 = _
    omega

/-- **An assignment to `defaults`** on a sound heap: the reference to the new layer was held
before, the one to the old layer is held now, and the new layer does not lead back. -/
theorem Sound.setDefaults {q : Option ℕ} (hs : h.Sound held) (hx : h.at? i = some x)
    (hq : ∀ b, q = some b → (∃ y, h.at? b = some y) ∧ ¬ Leads h.next i b)
    (hheld : ∀ k, held' k + (if q = some k then 1 else 0) =
      held k + if x.defaults = some k then 1 else 0) : Sound (h.setDefaults i q) held' := by
  rw [Heap.setDefaults, modify_of_at? hx]
  have hset := pointers_set hx (some { x with defaults := q })
  simp only [Option.bind_some] at hset
  constructor
  · intro k z hz
    have hk := hheld k
    have := hset k
    rw [at?_set hx] at hz
    split_ifs at hz with hki
    · obtain rfl := Option.some.inj hz
      have hold := hs.counted i x hx
      rw [← hki] at hold
      change x.refCount = _
      omega
    · have hold := hs.counted k z hz
      omega
  · intro k hk
    rw [at?_set hx]
    split_ifs with hki
    · exact ⟨_, rfl⟩
    · by_cases hd : x.defaults = some k
      · exact hs.exists_next hx hd
      · have hk' := hheld k
        rw [if_neg hd] at hk'
        exact hs.allocated k (by omega)
  · intro k z hz
    -- the walk ended before, and the new pointer does not lead back to `i`
    have hends : ∃ n, EndsIn h.next n (some k) := by
      rw [at?_set hx] at hz
      split_ifs at hz with hki
      · exact hki ▸ hs.ends i x hx
      · exact hs.ends k z hz
    obtain ⟨n, hn⟩ := hends
    refine hn.link (a := i) (fun c hc => ?_) ?_ ?_ fun b hb => (hq b hb).2
    · rw [next_set hx, if_neg hc]
    · rw [next_set hx, if_pos rfl]
      rfl
    · cases q with
      | none => exact ⟨0, .null⟩
      | some b =>
        obtain ⟨y, hy⟩ := (hq b rfl).1
        exact hs.ends b y hy

/-- `release_ref` does not look at a pointer of an object that it leaves. -/
theorem releaseRef_setDefaults (p : Option ℕ) (hy : (h.releaseRef j).at? i = some y) :
    (h.setDefaults i p).releaseRef j = (h.releaseRef j).setDefaults i p := by
  induction h, j using Heap.releaseRef.induct with
  | case1 h j hx =>
    rw [releaseRef_of_none hx] at hy ⊢
    rw [releaseRef_of_none]
    rw [Heap.setDefaults, modify_of_at? hy, at?_set hy, if_neg, hx]
    rintro rfl
    exact absurd (hx.symm.trans hy) (by simp)
  | case2 h j x hx hcount hd =>
    rw [releaseRef_of_one hx hcount, hd, Option.elim_none] at hy ⊢
    obtain ⟨hne, hy'⟩ := at?_of_at?_set_none hx hy
    have hx' : (h.setDefaults i p).at? j = some x := by
      rw [Heap.setDefaults, modify_of_at? hy', at?_set hy', if_neg hne.symm, hx]
    rw [releaseRef_of_one hx' hcount, hd, Option.elim_none]
    exact setDefaults_set_none hx hne
  | case3 h j x hx hcount d hd ih =>
    rw [releaseRef_of_one hx hcount, hd, Option.elim_some] at hy ⊢
    obtain ⟨z, hz, -⟩ := at?_releaseRef hy
    obtain ⟨hne, hz'⟩ := at?_of_at?_set_none hx hz
    have hx' : (h.setDefaults i p).at? j = some x := by
      rw [Heap.setDefaults, modify_of_at? hz', at?_set hz', if_neg hne.symm, hx]
    rw [releaseRef_of_one hx' hcount, hd, Option.elim_some, ← ih hy]
    exact congrArg (fun h => releaseRef h d) (setDefaults_set_none hx hne)
  | case4 h j x hx hcount =>
    rw [releaseRef_of_ne_one hx hcount] at hy ⊢
    have hat := at?_set hx (some { x with refCount := x.refCount - 1 }) i
    by_cases hij : i = j
    · subst hij
      rw [if_pos rfl] at hat
      have hx' : (h.setDefaults i p).at? i = some { x with defaults := p } := by
        rw [Heap.setDefaults, modify_of_at? hx, at?_set hx, if_pos rfl]
      rw [releaseRef_of_ne_one hx' hcount, Heap.setDefaults, Heap.setDefaults, modify_of_at? hx,
        modify_of_at? hat, List.set_set, List.set_set]
    · rw [if_neg hij] at hat
      have hy' := hat.symm.trans hy
      have hx' : (h.setDefaults i p).at? j = some x := by
        rw [Heap.setDefaults, modify_of_at? hy', at?_set hy', if_neg (Ne.symm hij), hx]
      rw [releaseRef_of_ne_one hx' hcount, Heap.setDefaults, Heap.setDefaults, modify_of_at? hy',
        modify_of_at? hy]
      exact List.set_comm _ _ hij

theorem next_addRef (hx : h.at? i = some x) : (h.addRef i).next = h.next := by
  funext k
  rw [Heap.addRef, modify_of_at? hx, next_set hx]
  split_ifs with hk
  · rw [hk, next_of_at? hx]
    rfl
  · rfl

/-- `is_ancestor` does not miss what the walk comes to. -/
theorem not_leads_of_isAncestor {n : ℕ} (hfalse : h.isAncestor n i j = some false) :
    ¬ Leads h.next j i := by
  induction n generalizing i with
  | zero => cases hfalse
  | succ n ih =>
    obtain ⟨y, hy, hrest⟩ := Option.bind_eq_some_iff.mp hfalse
    split_ifs at hrest with hhere
    · cases hrest
    · intro hleads
      cases hleads with
      | refl => exact hhere (.inl rfl)
      | step hnext hc =>
        rw [next_of_at? hy, Option.some.injEq] at hnext
        rw [hnext] at hrest
        exact ih hrest hc

theorem setDefaults_setDefaults (hx : h.at? i = some x) (p q : Option ℕ) :
    (h.setDefaults i p).setDefaults i q = h.setDefaults i q := by
  have hx' : (h.setDefaults i p).at? i = some { x with defaults := p } := by
    rw [Heap.setDefaults, modify_of_at? hx, at?_set hx, if_pos rfl]
  rw [Heap.setDefaults, modify_of_at? hx', Heap.setDefaults, modify_of_at? hx, Heap.setDefaults,
    modify_of_at? hx, List.set_set]

theorem setDefaults_self (hx : h.at? i = some x) : h.setDefaults i x.defaults = h := by
  obtain ⟨hi, hget⟩ := List.getElem?_eq_some_iff.mp (getElem?_of_at? hx)
  rw [Heap.setDefaults, modify_of_at? hx]
  change h.set i (some x) = h
  rw [← hget, List.set_getElem_self]

/-- A layer that loses its pointer leads to less. -/
theorem leads_of_leads_setDefaults_none (hx : h.at? i = some x)
    (hleads : Leads (h.setDefaults i none).next j k) : Leads h.next j k := by
  refine hleads.mono fun a c hac => ?_
  rw [Heap.setDefaults, modify_of_at? hx, next_set hx] at hac
  split_ifs at hac
  · cases Option.some.inj hac
  · exact hac

/-- **A new layer** in the place of the old one, which is released while the object still points
to it. -/
theorem Sound.replaceDefaults {d : ℕ}
    (hs : h.Sound fun k => held k + if k = j then 1 else 0) (hi : 0 < held i)
    (hx : h.at? i = some x) (hd : x.defaults = some d) (hback : ¬ Leads h.next i j) :
    Sound ((h.releaseRef d).setDefaults i (some j)) held := by
  have hcut : Sound (h.setDefaults i none) fun k =>
      (held k + if k = j then 1 else 0) + if k = d then 1 else 0 := by
    refine hs.setDefaults hx (fun b hb => by cases hb) fun k => ?_
    simp only [hd, Option.some.injEq, reduceCtorEq, if_false, Nat.add_zero, eq_comm]
  have hreleased := hcut.releaseRef fun _ => rfl
  obtain ⟨y, hy⟩ := hreleased.allocated i (by omega)
  obtain ⟨z, hz⟩ := hreleased.allocated j (by rw [if_pos rfl]; omega)
  have hx' : (h.setDefaults i none).at? i = some { x with defaults := none } := by
    rw [Heap.setDefaults, modify_of_at? hx, at?_set hx, if_pos rfl]
  have hynone : y.defaults = none := by
    obtain ⟨x', hx'', hdefaults⟩ := at?_releaseRef hy
    obtain rfl := Option.some.inj (hx'.symm.trans hx'')
    exact hdefaults.symm
  -- the source releases the old layer first, and cuts the pointer to it by the assignment
  have hcomm : h.releaseRef d = ((h.setDefaults i none).releaseRef d).setDefaults i (some d) := by
    rw [← releaseRef_setDefaults (some d) hy, setDefaults_setDefaults hx, ← hd,
      setDefaults_self hx]
  rw [hcomm, setDefaults_setDefaults hy]
  refine hreleased.setDefaults hy (fun b hb => ?_) fun k => ?_
  · obtain rfl := Option.some.inj hb
    exact ⟨⟨z, hz⟩, fun hleads =>
      hback (leads_of_leads_setDefaults_none hx (leads_of_leads_releaseRef hleads))⟩
  · simp only [hynone, Option.some.injEq, reduceCtorEq, if_false, Nat.add_zero, eq_comm]

/-- A reference that is added and released leaves no trace. -/
theorem releaseRef_addRef (hx : h.at? i = some x) (hpos : 0 < x.refCount) :
    (h.addRef i).releaseRef i = h := by
  obtain ⟨hi, hget⟩ := List.getElem?_eq_some_iff.mp (getElem?_of_at? hx)
  have hx' : (h.addRef i).at? i = some { x with refCount := x.refCount + 1 } := by
    rw [Heap.addRef, modify_of_at? hx, at?_set hx, if_pos rfl]
  rw [releaseRef_of_ne_one hx' (by simpa using hpos.ne'), Heap.addRef, modify_of_at? hx,
    List.set_set]
  change h.set i (some x) = h
  rw [← hget, List.set_getElem_self]

/-- **A rejected call** of `get_defaults_from` leaves the heap as it was. -/
theorem getDefaultsFrom_of_isAncestor {fuel : ℕ} (hs : h.Sound held) (hj : 0 < held j)
    (hancestor : (h.addRef j).isAncestor fuel i j = some true) :
    h.getDefaultsFrom fuel i j = some h := by
  obtain ⟨y, hy⟩ := hs.allocated j hj
  have hcount := hs.counted j y hy
  rw [Heap.getDefaultsFrom, hancestor]
  exact congrArg some (releaseRef_addRef hy (by omega))

/-- **`get_defaults_from`** on a sound heap, where the new layer does not lead back or is below
already. -/
theorem Sound.getDefaultsFrom {h' : Heap} {fuel : ℕ} (hs : h.Sound held) (hi : 0 < held i)
    (hj : 0 < held j) (hallowed : ¬ Leads h.next i j ∨ Leads h.next j i)
    (hcall : h.getDefaultsFrom fuel i j = some h') : h'.Sound held := by
  obtain ⟨y, hy⟩ := hs.allocated j hj
  have hone : ∀ k, (held k + if k = j then 1 else 0) = held k + if k = j then 1 else 0 :=
    fun _ => rfl
  -- the parameter holds a reference of its own
  have hparam := hs.addRef hy hone
  have hnext := next_addRef hy
  cases hancestor : (h.addRef j).isAncestor fuel i j with
  | none =>
    rw [Heap.getDefaultsFrom, hancestor] at hcall
    cases hcall
  | some b =>
    cases b with
    | true =>
      rw [getDefaultsFrom_of_isAncestor hs hj hancestor] at hcall
      obtain rfl := Option.some.inj hcall
      exact hs
    | false =>
      rw [Heap.getDefaultsFrom, hancestor] at hcall
      obtain rfl := Option.some.inj hcall
      have hback : ¬ Leads (h.addRef j).next i j := by
        rw [hnext]
        refine hallowed.resolve_right ?_
        rw [← hnext]
        exact not_leads_of_isAncestor hancestor
      obtain ⟨x, hx⟩ := hparam.allocated i (by omega)
      have hlinked : Sound (((h.addRef j).releaseDefaults i).setDefaults i (some j)) held := by
        rw [releaseDefaults, hx, Option.bind_some]
        cases hd : x.defaults with
        | some d => exact hparam.replaceDefaults hi hx hd hback
        | none =>
          refine hparam.setDefaults hx (fun b hb => ?_) fun k => ?_
          · obtain rfl := Option.some.inj hb
            exact ⟨hparam.allocated _ (by rw [if_pos rfl]; omega), hback⟩
          · simp only [hd, Option.some.injEq, reduceCtorEq, if_false, Nat.add_zero, eq_comm]
      obtain ⟨z, hz⟩ := hlinked.allocated j hj
      exact (hlinked.addRef hz hone).releaseRef hone

end Sound

section Walks

variable {h : Heap} {n i : ℕ}

end Walks

end Heap

end Intent.Old.Headers
