import Intent.Library.Run
import Intent.Old.HeaderOrder

/-!
# Headers

A `headers` object of `core/net/headers.cpp` points to a counted `impl_t`, which has a map of its
own and may point to another one for the headers that it does not define. Here are the heap of
these implementations, the methods that walk along the layers, and the operations on objects
that change the heap.

A map is the list of its entries, and is searched for a name that `header_is_less` does not put
before or behind another one. A `std::map` does the same if the comparator is a strict weak order
on its names, as it requires. `Intent.Old.HeadersSearch` says where it is one.

A walk is given a number of steps and has no result where that does not suffice: this is what a
method that does not return looks like, for every number.
-/

namespace Intent.Old.Headers

/-! ### The heap -/

/-- `header_status`. -/
inductive HeaderStatus where
  | missing
  | explicitlyDefined
  | inherited
  deriving DecidableEq

/-- `headers_map`, with the names and values as their `c_str()`. -/
abbrev HeadersMap := List (CString × CString)

/-- Neither of two names is less than the other. -/
def sameHeader (a b : CString) : Bool := !headerIsLess a b && !headerIsLess b a

/-- `map.find(header)`, where `header_is_less` orders the names. -/
def HeadersMap.find (map : HeadersMap) (header : CString) : Option CString :=
  (List.find? (fun entry => sameHeader entry.1 header) map).map (·.2)

/-- `map[header] = value`, where `header_is_less` orders the names. -/
def HeadersMap.assign (map : HeadersMap) (header value : CString) : HeadersMap :=
  if (map.find header).isSome then
    List.map (fun entry => if sameHeader entry.1 header then (entry.1, value) else entry) map
  else (header, value) :: map

/-- `impl_t`; its counter does not overflow. -/
structure Impl where
  refCount : ℕ
  map : HeadersMap
  defaults : Option ℕ

/-- The objects on the heap by their addresses. What was deleted is `none`. -/
abbrev Heap := List (Option Impl)

namespace Heap

/-- The object at an address. -/
def at? (h : Heap) (i : ℕ) : Option Impl := h[i]?.join

/-- The pointer `defaults` of the object at an address. -/
def next (h : Heap) (i : ℕ) : Option (Option ℕ) := (h.at? i).map (·.defaults)

/-- A change of the object at an address. -/
def modify (h : Heap) (i : ℕ) (f : Impl → Impl) : Heap :=
  match h.at? i with
  | some x => h.set i (some (f x))
  | none => h

/-- `add_ref`. -/
def addRef (h : Heap) (i : ℕ) : Heap := h.modify i fun x => { x with refCount := x.refCount + 1 }

/-- An assignment to `defaults`. -/
def setDefaults (h : Heap) (i : ℕ) (p : Option ℕ) : Heap :=
  h.modify i fun x => { x with defaults := p }

section Set

variable {h : Heap} {i : ℕ} {x : Impl}

theorem getElem?_of_at? (hx : h.at? i = some x) : h[i]? = some (some x) :=
  Option.join_eq_some_iff.mp hx

theorem at?_set (hx : h.at? i = some x) (o : Option Impl) (k : ℕ) :
    at? (h.set i o) k = if k = i then o else h.at? k := by
  obtain ⟨hi, -⟩ := List.getElem?_eq_some_iff.mp (getElem?_of_at? hx)
  rw [at?, List.getElem?_set]
  by_cases hk : k = i
  · rw [if_pos hk.symm, if_pos hk, if_pos hi]
    rfl
  · rw [if_neg (Ne.symm hk), if_neg hk]
    rfl

theorem countP_set_none_lt (hx : h.at? i = some x) :
    List.countP Option.isSome (h.set i none) < List.countP Option.isSome h := by
  have hcount := countP_set_add (getElem?_of_at? hx) none Option.isSome
  simp only [Option.isSome_some, Option.isSome_none, if_true, Bool.false_eq_true, if_false]
    at hcount
  omega

end Set

/-- `release_ref`: an object that is not referred to any more is deleted, and with it its
reference to the next one. -/
def releaseRef (h : Heap) (i : ℕ) : Heap :=
  match _hx : h.at? i with
  | none => h
  | some x =>
    if x.refCount = 1 then
      match x.defaults with
      | none => h.set i none
      | some d => releaseRef (h.set i none) d
    else h.set i (some { x with refCount := x.refCount - 1 })
termination_by List.countP Option.isSome h
decreasing_by exact countP_set_none_lt _hx

/-- `is_ancestor`; `none` if it does not return within the given number of calls. -/
def isAncestor (h : Heap) : ℕ → ℕ → ℕ → Option Bool
  | 0, _, _ => none
  | n + 1, i, x =>
    (h.at? i).bind fun y =>
      if x = i ∨ y.defaults = some x then some true
      else
        match y.defaults with
        | some d => h.isAncestor n d x
        | none => some false

/-- `impl_t::get`. -/
def get (h : Heap) : ℕ → ℕ → CString → Option (Option CString)
  | 0, _, _ => none
  | n + 1, i, header =>
    (h.at? i).bind fun x =>
      match x.map.find header, x.defaults with
      | some value, _ => some (some value)
      | none, some d => h.get n d header
      | none, none => some none

/-- `impl_t::contains`. -/
def contains (h : Heap) : ℕ → ℕ → CString → Option HeaderStatus
  | 0, _, _ => none
  | n + 1, i, header =>
    (h.at? i).bind fun x =>
      match x.map.find header, x.defaults with
      | some _, _ => some .explicitlyDefined
      | none, some d =>
        (h.contains n d header).map fun status =>
          if status ≠ .missing then .inherited else .missing
      | none, none => some .missing

/-- The loop of `is_empty`. -/
def isEmpty (h : Heap) : ℕ → Option ℕ → Option Bool
  | _, none => some true
  | 0, some _ => none
  | n + 1, some i =>
    (h.at? i).bind fun x => if x.map.length > 0 then some false else h.isEmpty n x.defaults

/-- The release of the old defaults in `get_defaults_from`. -/
def releaseDefaults (h : Heap) (i : ℕ) : Heap :=
  match (h.at? i).bind (·.defaults) with
  | some d => h.releaseRef d
  | none => h

/-- `get_defaults_from`, of the object with the first and for the object with the second
implementation. The parameter is a copy, which is released at the end. -/
def getDefaultsFrom (h : Heap) (fuel i j : ℕ) : Option Heap :=
  let h := h.addRef j
  match h.isAncestor fuel i j with
  | none => none
  | some true => some (h.releaseRef j)
  | some false =>
    some ((((h.releaseDefaults i).setDefaults i (some j)).addRef j).releaseRef j)

end Heap

/-! ### Objects -/

/-- The heap, and the pointers `impl` of the objects. No operation here makes one of them null. -/
structure State where
  heap : Heap
  objects : List ℕ

/-- No objects. -/
def State.initial : State := ⟨[], []⟩

/-- `headers()`, `set`, `get_defaults_from` and the copy assignment, with the objects that they
are called on and for. -/
inductive Op where
  | fresh
  | set (o : ℕ) (header value : CString)
  | getDefaultsFrom (o p : ℕ)
  | assign (o p : ℕ)

/-- `headers::set`. -/
def State.set (s : State) (i : ℕ) (header value : CString) : State :=
  if header.chars = [] then s
  else
    { s with heap := s.heap.modify i fun x => { x with map := x.map.assign header value } }

/-- `operator =`, of the object `o` with the implementation `i` and for an object with the
implementation `j`. -/
def State.assign (s : State) (fuel o i j : ℕ) : Option State :=
  match s.heap.isAncestor fuel i j with
  | none => none
  | some true => some s
  | some false => some ⟨(s.heap.releaseRef i).addRef j, s.objects.set o j⟩

/-- An operation returns, with this state. A call whose precondition fails leaves the state as it
was. -/
def State.Step (s : State) : Op → State → Prop
  | .fresh, s' => s' = ⟨s.heap ++ [some ⟨1, [], none⟩], s.objects ++ [s.heap.length]⟩
  | .set o header value, s' => ∃ i, s.objects[o]? = some i ∧ s' = s.set i header value
  | .getDefaultsFrom o p, s' =>
    ∃ i j fuel h, s.objects[o]? = some i ∧ s.objects[p]? = some j ∧
      s.heap.getDefaultsFrom fuel i j = some h ∧ s' = { s with heap := h }
  | .assign o p, s' =>
    ∃ i j fuel, s.objects[o]? = some i ∧ s.objects[p]? = some j ∧ s.assign fuel o i j = some s'

/-- `headers::get`. -/
def State.get (s : State) (fuel i : ℕ) (header : CString) : Option (Option CString) :=
  if header.chars = [] then some none else s.heap.get fuel i header

/-- `headers::contains`. -/
def State.contains (s : State) (fuel i : ℕ) (header : CString) : Option HeaderStatus :=
  if header.chars = [] then some .missing else s.heap.contains fuel i header

/-- `headers::is_empty`. -/
def State.isEmpty (s : State) (fuel i : ℕ) : Option Bool := s.heap.isEmpty fuel (some i)

end Intent.Old.Headers
