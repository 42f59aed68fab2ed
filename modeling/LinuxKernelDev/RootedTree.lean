import Mathlib.Data.List.Count
import Mathlib.Data.List.Nodup
import Mathlib.Data.List.Perm.Basic

/-!
# Walking a rooted tree

A function gives the children of every node, in order and with repetitions.
The walk from the root in preorder, cut off at a depth, visits the nodes level
by level up to order.  If the root is nobody's child and every child has one
parent and is named once by it, each node is met once, at its own depth.
-/

namespace LinuxKernelDev.RootedTree

variable {α : Type*}

/-- The nodes met by a depth-first walk of bounded depth. -/
def preorder (children : α → List α) : Nat → α → List α
  | 0, _ => []
  | depth + 1, node =>
      node :: (children node).flatMap (preorder children depth)

/-- The descendants of a list of nodes after a number of generations. -/
def level (children : α → List α) (nodes : List α) : Nat → List α
  | 0 => nodes
  | generation + 1 => (level children nodes generation).flatMap children

/-- A node at a distance from the root. -/
inductive AtDepth (children : α → List α) (root : α) : Nat → α → Prop
  | root : AtDepth children root 0 root
  | child {depth : Nat} {parent child : α}
      (parentDepth : AtDepth children root depth parent)
      (member : child ∈ children parent) :
      AtDepth children root (depth + 1) child

variable {children : α → List α}

theorem level_flatMap (nodes : List α) (generation : Nat) :
    level children (nodes.flatMap children) generation =
      level children nodes (generation + 1) := by
  induction generation with
  | zero => rfl
  | succ generation ih =>
      rw [level, ih]
      rfl

/-- The walk is a permutation of the levels. -/
theorem flatMap_preorder_perm (nodes : List α) (depth : Nat) :
    (nodes.flatMap (preorder children depth)).Perm
      ((List.range depth).flatMap (level children nodes)) := by
  induction depth generalizing nodes with
  | zero => simp [preorder]
  | succ depth ih =>
      have apart : (nodes.flatMap (preorder children (depth + 1))).Perm
          (nodes ++ (nodes.flatMap children).flatMap
            (preorder children depth)) := by
        rw [List.flatMap_assoc]
        have split := List.map_append_flatMap_perm nodes id fun node =>
          (children node).flatMap (preorder children depth)
        rw [List.map_id] at split
        exact split.symm
      refine (apart.trans ((ih _).append_left nodes)).trans ?_
      have shifted : (List.range depth).flatMap
          (level children (nodes.flatMap children)) =
            (List.range depth).flatMap fun generation =>
              level children nodes (generation + 1) :=
        List.flatMap_congr fun generation _ => level_flatMap nodes generation
      rw [shifted, List.range_succ_eq_map, List.flatMap_cons, List.flatMap_map]
      exact .refl _

theorem forall_mem_preorder {property : α → Prop}
    (closed : ∀ node, property node → ∀ child ∈ children node,
      property child) {depth : Nat} {node : α} (start : property node) :
    ∀ other ∈ preorder children depth node, property other := by
  induction depth generalizing node with
  | zero => nofun
  | succ depth ih =>
      intro other member
      rcases List.mem_cons.mp member with rfl | below
      · exact start
      · obtain ⟨child, childMem, located⟩ := List.mem_flatMap.mp below
        exact ih (closed node start child childMem) other located

theorem exists_bound {root : α} (nodes : List α)
    (located : ∀ node ∈ nodes, ∃ depth, AtDepth children root depth node) :
    ∃ bound, ∀ node ∈ nodes, ∃ depth < bound,
      AtDepth children root depth node := by
  induction nodes with
  | nil => exact ⟨0, nofun⟩
  | cons node nodes ih =>
      obtain ⟨bound, below⟩ :=
        ih fun other member => located other (by simp [member])
      obtain ⟨depth, atDepth⟩ := located node (by simp)
      refine ⟨max bound (depth + 1), fun other member => ?_⟩
      rcases List.mem_cons.mp member with rfl | later
      · exact ⟨depth, by omega, atDepth⟩
      · obtain ⟨otherDepth, less, otherAt⟩ := below other later
        exact ⟨otherDepth, by omega, otherAt⟩

variable [DecidableEq α]

/-- A value that occurs once, in the list of one item, occurs as often as the
item. -/
theorem count_flatMap_of_once {ι : Type*} [DecidableEq ι]
    (expand : ι → List α) {owner : ι} {value : α}
    (once : ∀ item, (expand item).count value =
      if item = owner then 1 else 0) (items : List ι) :
    (items.flatMap expand).count value = items.count owner := by
  induction items with
  | nil => rfl
  | cons item items ih =>
      rw [List.flatMap_cons, List.count_append, ih, once, List.count_cons]
      simp only [beq_iff_eq]
      omega

/-- The root is nobody's child, and a child is named once, by one parent. -/
structure IsTree (children : α → List α) (root : α) : Prop where
  root : ∀ node, root ∉ children node
  once : ∀ parent, ∀ child ∈ children parent, ∀ node,
    (children node).count child = if node = parent then 1 else 0

namespace IsTree

variable {root : α} (tree : IsTree children root)

include tree

/-- A node occurs on its own level only, and there once. -/
theorem count_level {depth : Nat} {node : α}
    (located : AtDepth children root depth node) (generation : Nat) :
    (level children [root] generation).count node =
      if generation = depth then 1 else 0 := by
  induction located generalizing generation with
  | root =>
      cases generation with
      | zero => simp [level]
      | succ generation =>
          rw [if_neg (by omega), List.count_eq_zero]
          intro member
          obtain ⟨node, -, named⟩ := List.mem_flatMap.mp member
          exact tree.root node named
  | @child depth parent child _ member ih =>
      cases generation with
      | zero =>
          rw [if_neg (by omega), List.count_eq_zero]
          intro same
          rw [List.mem_singleton.mp same] at member
          exact tree.root parent member
      | succ generation =>
          rw [level, count_flatMap_of_once children
            (tree.once parent child member), ih]
          simp

theorem atDepth_unique {first second : Nat} {node : α}
    (atFirst : AtDepth children root first node)
    (atSecond : AtDepth children root second node) : first = second := by
  have here := tree.count_level atFirst first
  rw [tree.count_level atSecond first, if_pos rfl] at here
  by_contra different
  rw [if_neg different] at here
  omega

/-- A walk that is deep enough meets a node exactly once. -/
theorem count_preorder {depth bound : Nat} {node : α}
    (located : AtDepth children root depth node) (deep : depth < bound) :
    (preorder children bound root).count node = 1 := by
  have perm : ([root].flatMap (preorder children bound)).Perm _ :=
    flatMap_preorder_perm [root] bound
  rw [List.flatMap_singleton] at perm
  rw [perm.count_eq, count_flatMap_of_once _ (tree.count_level located)]
  exact List.count_eq_one_of_mem List.nodup_range (List.mem_range.mpr deep)

/-- A walk that is deep enough is a permutation of the nodes. -/
theorem preorder_perm {nodes : List α} {bound : Nat} (nodup : nodes.Nodup)
    (located : ∀ node ∈ nodes, ∃ depth < bound,
      AtDepth children root depth node)
    (inside : ∀ node ∈ preorder children bound root, node ∈ nodes) :
    (preorder children bound root).Perm nodes := by
  rw [List.perm_iff_count]
  intro node
  by_cases member : node ∈ nodes
  · obtain ⟨depth, deep, atDepth⟩ := located node member
    rw [tree.count_preorder atDepth deep,
      List.count_eq_one_of_mem nodup member]
  · rw [List.count_eq_zero.mpr member,
      List.count_eq_zero.mpr fun walked => member (inside node walked)]

end IsTree

end LinuxKernelDev.RootedTree
