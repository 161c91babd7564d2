import Intent.Library.Forest
import Intent.Library.Run
import Intent.Old.AstNode
import Mathlib.Tactic.Ring

/-!
# The heap of AST nodes

The construction of nodes, `add_child` and `delete` of `lang/ast/node.cpp`, on a heap that has the
nodes that are alive under their addresses. A call that looks at a node that is gone has no result.

`add_child` takes a node over without a look at the one that has it already, and `delete` deletes
all that a node has. `deleteNode_returns_iff` says which heaps allow this, and `Disciplined` calls
keep to them: a node is given away by who has it, to a node that is not below it, and `delete` is
for nodes that no other has. `heap_is_forest` says that no run of such calls looks at a node that is
gone, and that each ends with a forest.
-/

namespace Intent.Old.Ast

variable {ν : Type}

/-- `node`. The children are in the slots of the array in front of `child_count`. -/
structure Node (ν : Type) where
  parent : Option ν
  children : List ν
  childCount : UInt32
  allocatedChildCount : UInt32

/-- The nodes that are alive. -/
abbrev Heap (ν : Type) := ν → Option (Node ν)

/-! ### The calls -/

/-- The constructor. It does not tell the parent. -/
def newNode (parent : Option ν) : Node ν :=
  { parent, children := [], childCount := 0, allocatedChildCount := 0 }

/-- `get_child`. -/
def getChild (node : Node ν) (i : UInt32) : Option ν :=
  if i < node.childCount then node.children[i.toNat]? else none

section Calls

variable [DecidableEq ν]

/-- The end of `add_child`, where the array of `this` has room. -/
def appendChild (h : Heap ν) (this : ν) (node : Node ν) (child : ν) : Option (Heap ν) :=
  let h := Function.update h this
    (some { node with children := node.children ++ [child], childCount := node.childCount + 1 })
  (h child).map fun node => Function.update h child (some { node with parent := some this })

/-- How many slots `add_child` asks for, where all are taken. -/
def newCount (node : Node ν) : UInt32 :=
  if node.allocatedChildCount ≠ 0 then node.allocatedChildCount * 2 else 4

/-- `node::add_child`. Where the array has to grow, `granted` says whether there is memory, and
`std::bad_alloc` leaves the heap as it is. There is no result where the array grows to no slot. -/
def addChild (h : Heap ν) (granted : Bool) (this : ν) (child : Option ν) : Option (Heap ν) :=
  match child with
  | none => some h
  | some child =>
    match h this with
    | none => none
    | some node =>
      if node.childCount = node.allocatedChildCount then
        if newCount node = 0 then none
        else if granted then
          appendChild h this { node with allocatedChildCount := newCount node } child
        else some h
      else appendChild h this node child

/-- `delete`: the destructor `node::~node` deletes the children first to last, and then the node is
gone. -/
def deleteNode : ℕ → Heap ν → ν → Option (Heap ν) := release Node.children

/-- `node::get_root`. -/
def getRoot (h : Heap ν) : ℕ → ν → Option ν
  | 0, _ => none
  | n + 1, p =>
    match h p with
    | none => none
    | some node =>
      match node.parent with
      | none => some p
      | some nxt => getRoot h n nxt

/-- What the users of nodes call. -/
inductive Call (ν : Type) where
  | construct (this : ν) (parent : Option ν)
  | addChild (granted : Bool) (this : ν) (child : Option ν)
  | delete (this : ν)

/-- A call returns. A new node is where none is. -/
def Step (h : Heap ν) : Call ν → Heap ν → Prop
  | .construct this parent, h' =>
    h this = none ∧ h' = Function.update h this (some (newNode parent))
  | .addChild granted this child, h' => addChild h granted this child = some h'
  | .delete this, h' => ∃ n, deleteNode n h this = some h'

end Calls

/-! ### What the nodes have -/

/-- `x` has the child `y`. -/
abbrev HasChild (h : Heap ν) : ν → ν → Prop := OwnsCell Node.children h

/-- `y` is `x`, or a child of it, and so on. -/
abbrev Below (h : Heap ν) (x y : ν) : Prop := Relation.ReflTransGen (HasChild h) x y

/-- A node that is alive, and that no other has. -/
def IsRoot (h : Heap ν) (x : ν) : Prop := (h x).isSome = true ∧ ∀ y, ¬ HasChild h y x

/-- The parents of the nodes. -/
def parentOf (h : Heap ν) (x : ν) : Option ν := (h x).bind Node.parent

/-- Calls by users who keep track of who has which node. A new node is where none is, and arrays
have less than `2 ^ 31` children before they get another one. -/
def Disciplined (h : Heap ν) : Call ν → Prop
  | .construct this _ => h this = none
  | .addChild _ this child =>
    ∀ c ∈ child, IsRoot h c ∧ ¬ Below h c this ∧
      ∃ node, h this = some node ∧ node.childCount.toNat < 2 ^ 31
  | .delete this => IsRoot h this

/-! ### The slots -/

section Slots

variable {node : Node ν}

/-- The slots of a node. The array has 4 of them at first and doubles, and less than half of it is
free once it has grown. -/
structure SlotsFit (node : Node ν) : Prop where
  length_eq : node.children.length = node.childCount.toNat
  count_le : node.childCount.toNat ≤ node.allocatedChildCount.toNat
  pow : node.allocatedChildCount = 0 ∨ ∃ k ≤ 29, node.allocatedChildCount.toNat = 2 ^ (k + 2)
  tight : node.allocatedChildCount.toNat ≤ 4 ∨
    node.allocatedChildCount.toNat < 2 * node.childCount.toNat

theorem slotsFit_newNode (parent : Option ν) : SlotsFit (newNode parent) :=
  ⟨rfl, Nat.le_refl _, .inl rfl, .inl (Nat.zero_le _)⟩

theorem SlotsFit.withParent (hfit : SlotsFit node) (parent : Option ν) :
    SlotsFit { node with parent } :=
  ⟨hfit.length_eq, hfit.count_le, hfit.pow, hfit.tight⟩

theorem SlotsFit.getChild_eq (hfit : SlotsFit node) (i : UInt32) :
    getChild node i = node.children[i.toNat]? := by
  rw [getChild]
  split_ifs with hi
  · rfl
  · refine (List.getElem?_eq_none ?_).symm
    rw [hfit.length_eq]
    exact UInt32.le_iff_toNat_le.mp (UInt32.not_lt.mp hi)

/-- The array doubles, up to the size at which a 32-bit count overflows. -/
theorem SlotsFit.toNat_newCount (hfit : SlotsFit node)
    (hfull : node.childCount = node.allocatedChildCount) :
    (newCount node = 0 ∧ node.childCount.toNat = 2 ^ 31) ∨
      (node.childCount.toNat = 0 ∧ (newCount node).toNat = 4) ∨
      ∃ k ≤ 28, node.childCount.toNat = 2 ^ (k + 2) ∧ (newCount node).toNat = 2 ^ (k + 1 + 2) := by
  rw [hfull, newCount]
  rcases hfit.pow with hzero | ⟨k, hk, hpow⟩
  · rw [if_neg (not_not.mpr hzero), hzero]
    exact .inr (.inl ⟨rfl, rfl⟩)
  · have hne : node.allocatedChildCount ≠ 0 := by
      intro heq
      rw [heq] at hpow
      exact absurd hpow.symm (Nat.pos_iff_ne_zero.mp (Nat.two_pow_pos _))
    have hdouble : (node.allocatedChildCount * 2).toNat = 2 ^ (k + 1 + 2) % 2 ^ 32 := by
      rw [UInt32.toNat_mul, hpow]
      congr 1
    rw [if_pos hne]
    rcases Nat.lt_or_ge k 29 with hlt | hge
    · refine .inr (.inr ⟨k, by omega, hpow, ?_⟩)
      rw [hdouble]
      exact Nat.mod_eq_of_lt (Nat.pow_lt_pow_right (by omega) (by omega))
    · obtain rfl : k = 29 := by omega
      exact .inl ⟨UInt32.toNat_inj.mp hdouble, hpow⟩

/-- The node with one more child. -/
def withChild (node : Node ν) (allocated : UInt32) (child : ν) : Node ν :=
  { node with
    children := node.children ++ [child]
    childCount := node.childCount + 1
    allocatedChildCount := allocated }

/-- A node with one more child, where there is a slot for it. -/
theorem SlotsFit.snoc (hfit : SlotsFit node) {c : ν} {allocated : UInt32}
    (hroom : node.childCount.toNat < allocated.toNat)
    (hpow : ∃ k ≤ 29, allocated.toNat = 2 ^ (k + 2))
    (htight : allocated.toNat ≤ 4 ∨ allocated.toNat ≤ 2 * node.childCount.toNat) :
    SlotsFit (withChild node allocated c) := by
  have hlt := allocated.toNat_lt
  have hcount : (node.childCount + 1).toNat = node.childCount.toNat + 1 := by
    rw [UInt32.toNat_add]
    exact Nat.mod_eq_of_lt (by
      have hone : (1 : UInt32).toNat = 1 := rfl
      omega)
  refine ⟨?_, ?_, .inr hpow, ?_⟩ <;> rw [withChild]
  · rw [List.length_append, hfit.length_eq, hcount, List.length_singleton]
  · dsimp only
    omega
  · dsimp only
    omega

end Slots

/-! ### One call -/

section OneCall

variable [DecidableEq ν] {h h' : Heap ν} {this c x y : ν} {child : Option ν} {node : Node ν}
  {granted : Bool}

/-- **`delete`** returns without a look at a node that is gone if and only if what is below the node
is a tree. The nodes of the tree are then gone, each once, and nothing else has changed. -/
theorem deleteNode_returns_iff : (∃ n, deleteNode n h x = some h') ↔
    ∃ f : Forest ν, f.roots = [x] ∧ f.Kept Node.children h ∧ f.nodes.Nodup ∧
      h' = eraseAll h f.nodes :=
  release_eq_some_iff

/-- What `add_child` does where it returns: nothing, for a null pointer or without memory, or the
child has a slot and its parent is told. -/
theorem addChild_cases (hadd : addChild h granted this child = some h') :
    h' = h ∨ ∃ c node m allocated, child = some c ∧ h this = some node ∧
      Function.update h this (some (withChild node allocated c)) c = some m ∧
      (node.childCount ≠ node.allocatedChildCount ∧ allocated = node.allocatedChildCount ∨
        node.childCount = node.allocatedChildCount ∧ allocated = newCount node ∧
          newCount node ≠ 0) ∧
      h' = Function.update (Function.update h this (some (withChild node allocated c))) c
        (some { m with parent := some this }) := by
  cases child with
  | none => exact .inl (Option.some.inj hadd).symm
  | some c =>
    rw [addChild] at hadd
    cases hthis : h this with
    | none => rw [hthis] at hadd; cases hadd
    | some node =>
      rw [hthis] at hadd
      dsimp only at hadd
      split_ifs at hadd with hfull hzero hgranted
      · obtain ⟨m, hm, rfl⟩ := Option.map_eq_some_iff.mp hadd
        exact .inr ⟨c, node, m, newCount node, rfl, rfl, hm, .inr ⟨hfull, rfl, hzero⟩, rfl⟩
      · exact .inl (Option.some.inj hadd).symm
      · obtain ⟨m, hm, rfl⟩ := Option.map_eq_some_iff.mp hadd
        exact .inr ⟨c, node, m, node.allocatedChildCount, rfl, rfl, hm, .inl ⟨hfull, rfl⟩, rfl⟩

/-- `add_child` returns, where the nodes are alive and the array does not grow to no slot. -/
theorem exists_addChild (hthis : h this = some node) (hc : (h c).isSome = true)
    (hcount : node.childCount = node.allocatedChildCount → newCount node ≠ 0) :
    ∃ h', addChild h granted this (some c) = some h' := by
  have happend : ∀ node', ∃ h', appendChild h this node' c = some h' := by
    intro node'
    rw [appendChild]
    rcases eq_or_ne c this with rfl | hne
    · rw [Function.update_self]
      exact ⟨_, rfl⟩
    · rw [Function.update_of_ne hne]
      obtain ⟨m, hm⟩ := Option.isSome_iff_exists.mp hc
      rw [hm]
      exact ⟨_, rfl⟩
  rw [addChild, hthis]
  dsimp only
  split_ifs with hfull hzero hgranted
  · exact absurd hzero (hcount hfull)
  · exact happend _
  · exact ⟨h, rfl⟩
  · exact happend _

end OneCall

/-! ### Runs of any calls -/

section AnyRuns

variable [DecidableEq ν] {h h' : Heap ν} {call : Call ν} {x : ν} {node : Node ν}

/-- Every call keeps the slots of all nodes. -/
theorem slotsFit_step (hfit : ∀ x node, h x = some node → SlotsFit node)
    (hstep : Step h call h') : ∀ x node, h' x = some node → SlotsFit node := by
  intro x node hx
  cases call with
  | construct this parent =>
    obtain ⟨-, rfl⟩ := hstep
    rcases eq_or_ne x this with rfl | hne
    · rw [Function.update_self] at hx
      obtain rfl := Option.some.inj hx
      exact slotsFit_newNode parent
    · rw [Function.update_of_ne hne] at hx
      exact hfit x node hx
  | addChild granted this child =>
    rcases addChild_cases hstep with rfl | ⟨c, old, m, allocated, -, hthis, hm, hroom, rfl⟩
    · exact hfit x node hx
    · have hold := hfit this old hthis
      have hnew : SlotsFit (withChild old allocated c) := by
        rcases hroom with ⟨hne, rfl⟩ | ⟨hfull, rfl, hpos⟩
        · have hlt : old.childCount.toNat < old.allocatedChildCount.toNat :=
            lt_of_le_of_ne hold.count_le fun heq => hne (UInt32.toNat_inj.mp heq)
          refine hold.snoc hlt (hold.pow.resolve_left ?_) (hold.tight.imp_right Nat.le_of_lt)
          intro hzero
          rw [hzero] at hlt
          exact absurd hlt (Nat.not_lt_zero _)
        · rcases hold.toNat_newCount hfull with ⟨hzero, -⟩ | ⟨hcount, hfour⟩ | ⟨k, hk, hcount, hpow⟩
          · exact absurd hzero hpos
          · exact hold.snoc (by omega) ⟨0, by omega, hfour⟩ (.inl hfour.le)
          · have hdouble : 2 ^ (k + 1 + 2) = 2 * 2 ^ (k + 2) := by ring
            have hle : 1 ≤ 2 ^ (k + 2) := Nat.one_le_two_pow
            exact hold.snoc (by omega) ⟨k + 1, by omega, hpow⟩ (.inr (by omega))
      have hall : ∀ y m, Function.update h this (some (withChild old allocated c)) y = some m →
          SlotsFit m := by
        intro y m hy
        rcases eq_or_ne y this with rfl | hne
        · rw [Function.update_self] at hy
          obtain rfl := Option.some.inj hy
          exact hnew
        · rw [Function.update_of_ne hne] at hy
          exact hfit y m hy
      rcases eq_or_ne x c with rfl | hne
      · rw [Function.update_self] at hx
        obtain rfl := Option.some.inj hx
        exact (hall x m hm).withParent (some this)
      · rw [Function.update_of_ne hne] at hx
        exact hall x node hx
  | delete this =>
    obtain ⟨f, -, -, -, rfl⟩ := deleteNode_returns_iff.mp hstep
    refine hfit x node ?_
    rwa [eraseAll_of_notMem (notMem_of_isSome_eraseAll (Option.isSome_of_eq_some hx))] at hx

/-- **The slots in every run**, of whatever calls: the children of a node are in slots that it has,
`get_child` returns them and null behind them, and the array is never more than twice as long as it
has to be, and 4 slots at least. -/
theorem slots_of_run {allowed : Heap ν → Call ν → Prop}
    (hrun : Reaches Step allowed (fun _ => none) h) (hx : h x = some node) :
    SlotsFit node ∧ ∀ i, getChild node i = node.children[i.toNat]? := by
  have hall : ∀ x node, h x = some node → SlotsFit node := by
    refine hrun.invariant (P := fun h => ∀ x node, h x = some node → SlotsFit node) ?_ ?_
    · intro x node hx
      cases hx
    · exact fun hfit _ hstep => slotsFit_step hfit hstep
  exact ⟨hall x node hx, (hall x node hx).getChild_eq⟩

end AnyRuns

/-! ### Runs of disciplined calls -/

section DisciplinedRuns

variable [DecidableEq ν] {h h' : Heap ν} {call : Call ν} {f : Forest ν} {this c r x y : ν}
  {child : Option ν} {granted : Bool} {n : UInt32} {k : ℕ}

/-- The nodes are a forest, and know their places in it. -/
structure IsForest (h : Heap ν) (f : Forest ν) : Prop where
  fills : f.Fills Node.children h
  parent : ∀ x y, HasChild h x y → parentOf h y = some x
  slots : ∀ x node, h x = some node → SlotsFit node

omit [DecidableEq ν] in
theorem IsForest.isRoot_iff (hf : IsForest h f) : IsRoot h x ↔ x ∈ f.roots :=
  hf.fills.mem_roots_iff.symm

/-- A deleted node takes what is below it along. -/
theorem IsForest.delete_eq (hf : IsForest h f) (hr : IsRoot h r)
    (hdelete : Step h (.delete r) h') : h' = eraseAll h (f.tree r).nodes := by
  have hr' := hf.isRoot_iff.mp hr
  obtain ⟨g, hroots, hkept, -, rfl⟩ := deleteNode_returns_iff.mp hdelete
  rw [hkept.unique (hf.fills.kept.tree r) (hroots.trans (Forest.roots_tree hr').symm)]

/-- The nodes of a tree are what is below its root. -/
theorem IsForest.mem_tree_iff (hf : IsForest h f) (hr : IsRoot h r) :
    x ∈ (f.tree r).nodes ↔ Below h r x := by
  have hroots := Forest.roots_tree (hf.isRoot_iff.mp hr)
  have hmem : r ∈ (f.tree r).roots := hroots ▸ List.mem_singleton_self r
  constructor
  · intro hx
    obtain ⟨r', hr', hbelow⟩ := (hf.fills.kept.tree r).exists_root hx
    rw [hroots, List.mem_singleton] at hr'
    exact hr' ▸ hbelow
  · exact (hf.fills.kept.tree r).mem_of_reachable (Forest.mem_nodes_of_mem_roots hmem)

/-- Disciplined calls keep the heap a forest. -/
theorem IsForest.step (hf : IsForest h f) (hcall : Disciplined h call)
    (hstep : Step h call h') : ∃ f, IsForest h' f := by
  have hslots := slotsFit_step hf.slots hstep
  cases call with
  | construct this parent =>
    obtain ⟨hnone, rfl⟩ := hstep
    refine ⟨_, hf.fills.alloc hnone rfl, ?_, hslots⟩
    rintro x y ⟨xs, hxs, hy⟩
    rcases eq_or_ne x this with rfl | hne
    · rw [Function.update_self] at hxs
      obtain rfl := Option.some.inj hxs
      cases hy
    · rw [Function.update_of_ne hne] at hxs
      have hne' : y ≠ this := by
        rintro rfl
        have hsome := hf.fills.isSome_of_ownsCell ⟨xs, hxs, hy⟩
        rw [hnone] at hsome
        cases hsome
      rw [parentOf, Function.update_of_ne hne']
      exact hf.parent x y ⟨xs, hxs, hy⟩
  | addChild granted this child =>
    rcases addChild_cases hstep with rfl | ⟨c, node, m, allocated, rfl, hthis, hm, -, rfl⟩
    · exact ⟨f, hf⟩
    · obtain ⟨hroot, hnot, -⟩ := hcall c rfl
      have hne : this ≠ c := by
        rintro rfl
        exact hnot .refl
      rw [Function.update_of_ne hne.symm] at hm
      have hother : ∀ z, z ≠ this →
          ((Function.update (Function.update h this (some (withChild node allocated c))) c
            (some { m with parent := some this })) z).map Node.children =
          (h z).map Node.children := by
        intro z hz
        rcases eq_or_ne z c with rfl | hzc
        · rw [Function.update_self, hm]
          rfl
        · rw [Function.update_of_ne hzc, Function.update_of_ne hz]
      have hself : ((Function.update (Function.update h this (some (withChild node allocated c))) c
            (some { m with parent := some this })) this).map Node.children =
          some (node.children ++ [c]) := by
        rw [Function.update_of_ne hne, Function.update_self]
        rfl
      have hchildren : (h this).map Node.children = some node.children := by
        rw [hthis, Option.map_some]
      refine ⟨_, hf.fills.give (hf.isRoot_iff.mp hroot) hchildren hnot hself hother, ?_, hslots⟩
      rintro x y ⟨xs, hxs, hy⟩
      rcases eq_or_ne y c with rfl | hyc
      · -- only `this` has the root that it was given
        rw [parentOf, Function.update_self]
        rcases eq_or_ne x this with rfl | hx
        · rfl
        · rw [hother x hx] at hxs
          exact absurd ⟨xs, hxs, hy⟩ (hroot.2 x)
      · have hparent : parentOf (Function.update
            (Function.update h this (some (withChild node allocated c))) c
            (some { m with parent := some this })) y = parentOf h y := by
          rw [parentOf, parentOf, Function.update_of_ne hyc]
          rcases eq_or_ne y this with rfl | hyt
          · rw [Function.update_self, hthis]
            rfl
          · rw [Function.update_of_ne hyt]
        rw [hparent]
        rcases eq_or_ne x this with rfl | hx
        · rw [hself] at hxs
          obtain rfl := Option.some.inj hxs
          have hold : y ∈ node.children :=
            (List.mem_append.mp hy).resolve_right fun heq => hyc (List.mem_singleton.mp heq)
          exact hf.parent x y ⟨node.children, hchildren, hold⟩
        · rw [hother x hx] at hxs
          exact hf.parent x y ⟨xs, hxs, hy⟩
  | delete this =>
    obtain rfl := hf.delete_eq hcall hstep
    have hfills := (hf.fills.release (hf.isRoot_iff.mp hcall)).2
    refine ⟨_, hfills, ?_, hslots⟩
    intro x y hxy
    have hy := notMem_of_isSome_eraseAll (hfills.isSome_of_ownsCell hxy)
    have hx := notMem_of_isSome_eraseAll hxy.isSome
    obtain ⟨xs, hxs, hmem⟩ := hxy
    rw [eraseAll_of_notMem hx] at hxs
    rw [parentOf, eraseAll_of_notMem hy]
    exact hf.parent x y ⟨xs, hxs, hmem⟩

/-- Disciplined calls return. -/
theorem IsForest.returns (hf : IsForest h f) (hcall : Disciplined h call) :
    ∃ h', Step h call h' := by
  cases call with
  | construct this parent => exact ⟨_, hcall, rfl⟩
  | addChild granted this child =>
    cases child with
    | none => exact ⟨h, rfl⟩
    | some c =>
      obtain ⟨hroot, -, node, hthis, hlt⟩ := hcall c rfl
      refine exists_addChild hthis hroot.1 fun hfull hzero => ?_
      rcases (hf.slots this node hthis).toNat_newCount hfull with
        ⟨-, hcount⟩ | ⟨-, hcount⟩ | ⟨k, -, -, hcount⟩
      · omega
      · rw [hzero] at hcount
        cases hcount
      · rw [hzero] at hcount
        exact absurd hcount.symm (Nat.pos_iff_ne_zero.mp (Nat.two_pow_pos _))
  | delete this =>
    obtain ⟨n, hn⟩ := (hf.fills.release (hf.isRoot_iff.mp hcall)).1
    exact ⟨_, n, hn⟩

/-- Disciplined runs from no nodes. -/
abbrev DisciplinedRun (h : Heap ν) : Prop := Reaches Step Disciplined (fun _ => none) h

theorem exists_isForest (hrun : DisciplinedRun h) : ∃ f, IsForest h f := by
  refine hrun.invariant (P := fun h => ∃ f, IsForest h f) ?_ ?_
  · refine ⟨.nil, ⟨trivial, List.nodup_nil, fun y hy => ?_⟩, ?_, ?_⟩
    · cases hy
    · rintro x y ⟨xs, hxs, -⟩
      cases hxs
    · intro x node hx
      cases hx
  · rintro h h' call ⟨f, hf⟩ hcall hstep
    exact hf.step hcall hstep

/-- **The heap is a forest** in every run of disciplined calls. The next disciplined call returns,
and does not look at a node that is gone. Every node is below exactly one that no other has, the
children know who has them, and `delete` takes what is below the node and leaves everything else
alone. -/
theorem heap_is_forest (hrun : DisciplinedRun h) :
    (∀ call, Disciplined h call → ∃ h', Step h call h') ∧
      (∀ y, (h y).isSome = true → ∃! r, IsRoot h r ∧ Below h r y) ∧
      (∀ x y, HasChild h x y → (h y).isSome = true ∧ parentOf h y = some x) ∧
      ∀ r h', IsRoot h r → Step h (.delete r) h' →
        (∀ y, Below h r y → h' y = none) ∧ ∀ y, ¬ Below h r y → h' y = h y := by
  obtain ⟨f, hf⟩ := exists_isForest hrun
  refine ⟨fun call => hf.returns, fun y hy => ?_, fun x y hxy => ?_, fun r h' hr hdelete => ?_⟩
  · obtain ⟨r, hr, hbelow⟩ := hf.fills.kept.exists_root (hf.fills.mem y hy)
    refine ⟨r, ⟨hf.isRoot_iff.mpr hr, hbelow⟩, ?_⟩
    rintro r' ⟨hr', hbelow'⟩
    exact hf.fills.root_unique (hf.isRoot_iff.mp hr') hr hbelow' hbelow
  · exact ⟨hf.fills.isSome_of_ownsCell hxy, hf.parent x y hxy⟩
  · obtain rfl := hf.delete_eq hr hdelete
    refine ⟨fun y hy => if_pos ((hf.mem_tree_iff hr).mpr hy), fun y hy => if_neg fun hmem => ?_⟩
    exact hy ((hf.mem_tree_iff hr).mp hmem)

/-! ### What the queries answer in these runs -/

/-- `x` is this many generations above `y`. -/
def Generations (h : Heap ν) (x : ν) : ℕ → ν → Prop
  | 0, y => x = y
  | k + 1, y => ∃ z, HasChild h z y ∧ Generations h x k z

omit [DecidableEq ν] in
theorem Generations.below {k : ℕ} (hk : Generations h x k y) : Below h x y := by
  induction k generalizing y with
  | zero => exact hk ▸ .refl
  | succ k ih =>
    obtain ⟨z, hzy, hk⟩ := hk
    exact (ih hk).tail hzy

omit [DecidableEq ν] in
/-- `get_root` goes from a node to the root above it, if that was not told another parent. -/
theorem IsForest.exists_getRoot (hf : IsForest h f) (hr : IsRoot h r) (hnone : parentOf h r = none)
    (hbelow : Below h r y) : ∃ n, getRoot h n y = some r := by
  induction hbelow with
  | refl =>
    obtain ⟨node, hnode⟩ := Option.isSome_iff_exists.mp hr.1
    rw [parentOf, hnode, Option.bind_some] at hnone
    refine ⟨1, ?_⟩
    rw [getRoot, hnode]
    dsimp only
    rw [hnone]
  | tail _ hzy ih =>
    obtain ⟨n, hn⟩ := ih
    obtain ⟨node, hnode, hparent⟩ := Option.bind_eq_some_iff.mp (hf.parent _ _ hzy)
    refine ⟨n + 1, ?_⟩
    rw [getRoot, hnode]
    dsimp only
    rw [hparent]
    exact hn

section BareRoots

variable (hbare : ∀ r, IsRoot h r → parentOf h r = none)

omit [DecidableEq ν] in
include hbare in
/-- Without other parents, the parents are those who have the nodes. -/
theorem IsForest.parentOf_eq_some_iff (hf : IsForest h f) :
    parentOf h y = some x ↔ HasChild h x y := by
  refine ⟨fun hparent => ?_, hf.parent x y⟩
  have hy : (h y).isSome = true := by
    obtain ⟨node, hnode, -⟩ := Option.bind_eq_some_iff.mp hparent
    exact Option.isSome_of_eq_some hnode
  rcases hf.fills.kept.exists_owner (hf.fills.mem y hy) with hroot | ⟨z, hzy⟩
  · rw [hbare y (hf.isRoot_iff.mpr hroot)] at hparent
    cases hparent
  · obtain rfl := Option.some.inj (hparent.symm.trans (hf.parent z y hzy))
    exact hzy

omit [DecidableEq ν] in
include hbare in
theorem IsForest.ancestor_eq_some_iff (hf : IsForest h f) :
    ancestor (parentOf h) k y = some x ↔ Generations h x k y := by
  induction k generalizing y with
  | zero =>
    rw [ancestor, Generations, Option.some_inj]
    exact eq_comm
  | succ k ih =>
    rw [ancestor, Generations, Option.bind_eq_some_iff]
    exact exists_congr fun z => and_congr (hf.parentOf_eq_some_iff hbare) ih

omit [DecidableEq ν] in
include hbare in
theorem IsForest.acyclic_parentOf (hf : IsForest h f) : Acyclic (parentOf h) := by
  intro y k hk
  obtain ⟨z, hzy, hk⟩ := (hf.ancestor_eq_some_iff hbare).mp hk
  exact hf.fills.irrefl (Relation.TransGen.tail' hk.below hzy)

include hbare in
theorem IsForest.hasAncestor_eq_iff (hf : IsForest h f) (hk : 0 < k) :
    hasAncestor (parentOf h) y (some x) n = k ↔ k < n.toNat ∧ Generations h x k y := by
  have hacyclic := hf.acyclic_parentOf hbare
  constructor
  · intro heq
    by_contra hnot
    by_cases hex : ∃ j < n.toNat, ancestor (parentOf h) j y = some x
    · obtain ⟨j, hj, hanc⟩ := hex
      rcases eq_or_ne x y with rfl | hne
      · rw [hasAncestor, if_neg (not_not.mpr rfl)] at heq
        omega
      · rw [hasAncestor_of_lt hacyclic hne hanc hj] at heq
        subst heq
        exact hnot ⟨hj, (hf.ancestor_eq_some_iff hbare).mp hanc⟩
    · rw [hasAncestor_eq_zero fun j hj hanc => hex ⟨j, hj, hanc⟩] at heq
      omega
  · rintro ⟨hlt, hgen⟩
    have hanc := (hf.ancestor_eq_some_iff hbare).mpr hgen
    refine hasAncestor_of_lt hacyclic ?_ hanc hlt
    rintro rfl
    obtain ⟨k, rfl⟩ := Nat.exists_eq_succ_of_ne_zero (Nat.pos_iff_ne_zero.mp hk)
    exact hacyclic x k hanc

end BareRoots

/-- **The queries** in every run of disciplined calls: `get_root` returns the root that a node is
below, if that was not told another parent. If no root was, `has_ancestor` and `has_descendant`
count the generations between two nodes, where the one is above the other and fewer generations
than the limit that they look at. -/
theorem queries_of_run (hrun : DisciplinedRun h) :
    (∀ r y, IsRoot h r → parentOf h r = none → Below h r y → ∃ n, getRoot h n y = some r) ∧
      ((∀ r, IsRoot h r → parentOf h r = none) → ∀ x y n k, 0 < k →
        (hasAncestor (parentOf h) y (some x) n = k ↔ k < n.toNat ∧ Generations h x k y) ∧
        (hasDescendant (parentOf h) x (some y) n = k ↔
          k < inAnyGeneration.toNat ∧ Generations h x k y)) := by
  obtain ⟨f, hf⟩ := exists_isForest hrun
  refine ⟨fun r y hr hnone => hf.exists_getRoot hr hnone, fun hbare x y n k hk => ?_⟩
  exact ⟨hf.hasAncestor_eq_iff hbare hk, hf.hasAncestor_eq_iff hbare hk⟩

end DisciplinedRuns

/-! ### A node with a child -/

section Family

/-- A node. -/
def alone : Heap ℕ := Function.update (fun _ => none) 0 (some (newNode none))

/-- Two nodes, of which one was told that the other is its parent. -/
def strangers : Heap ℕ := Function.update alone 1 (some (newNode (some 0)))

/-- The child is added. -/
def family : Heap ℕ :=
  Function.update (Function.update strangers 0 (some (withChild (newNode none) 4 1))) 1
    (some (newNode (some 0)))

theorem not_hasChild_strangers (x y : ℕ) : ¬ HasChild strangers x y := by
  rintro ⟨xs, hxs, hy⟩
  match x with
  | 0 => obtain rfl := Option.some.inj hxs; cases hy
  | 1 => obtain rfl := Option.some.inj hxs; cases hy
  | x + 2 => cases hxs

theorem hasChild_family {x y : ℕ} (hxy : HasChild family x y) : x = 0 ∧ y = 1 := by
  obtain ⟨xs, hxs, hy⟩ := hxy
  match x with
  | 0 => obtain rfl := Option.some.inj hxs; exact ⟨rfl, List.mem_singleton.mp hy⟩
  | 1 => obtain rfl := Option.some.inj hxs; cases hy
  | x + 2 => cases hxs

theorem isRoot_family : IsRoot family 0 :=
  ⟨rfl, fun _ hx => absurd (hasChild_family hx).2 (by decide)⟩

theorem disciplinedRun_family : DisciplinedRun family := by
  refine .tail (.addChild true 0 (some 1)) (t := strangers) ?_ ?_ rfl
  · refine .tail (.construct 1 (some 0)) (t := alone) ?_ rfl ⟨rfl, rfl⟩
    exact .tail (.construct 0 none) .refl rfl ⟨rfl, rfl⟩
  · rintro c hc
    obtain rfl := Option.mem_some.mp hc
    refine ⟨⟨rfl, fun x => not_hasChild_strangers x 1⟩, ?_, newNode none, rfl, by decide⟩
    intro hbelow
    rcases hbelow.cases_head with heq | ⟨y, hy, -⟩
    · exact absurd heq (by decide)
    · exact not_hasChild_strangers 1 y hy

/-- The slots of the parent. -/
theorem slots_family : SlotsFit (withChild (newNode none) 4 1) ∧
    ∀ i, getChild (withChild (newNode none) 4 1) i = [1][i.toNat]? :=
  slots_of_run disciplinedRun_family (x := 0) rfl

/-- The child is below its parent only. -/
theorem forest_family : ∃! r, IsRoot family r ∧ Below family r 1 :=
  (heap_is_forest disciplinedRun_family).2.1 1 rfl

/-- The root above the child. -/
theorem queries_family : ∃ n, getRoot family n 1 = some 0 :=
  (queries_of_run disciplinedRun_family).1 0 1 isRoot_family rfl
    (.single ⟨[1], rfl, List.mem_singleton_self 1⟩)

end Family

end Intent.Old.Ast
