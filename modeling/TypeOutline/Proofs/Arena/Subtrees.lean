import TypeOutline.Proofs.Arena.Descent

/-!
# The trees below a tree

A statement about every node below a top is a statement about every
subtree of the tree of the top, since the tree of a node that is reached
is one of these subtrees (`tree_mem_subtrees`) and shows the attributes
and the number of children of the node (`tree_eq_node`).
-/

namespace TypeOutline

namespace Rose

variable {α : Type}

mutual

/-- The tree itself and all trees below it. -/
def subtrees : Rose α → List (Rose α)
  | node a ts => node a ts :: subtreesAll ts

def subtreesAll : List (Rose α) → List (Rose α)
  | [] => []
  | t :: ts => t.subtrees ++ subtreesAll ts

end

theorem mem_subtreesAll {u : Rose α} {ts : List (Rose α)} :
    u ∈ subtreesAll ts ↔ ∃ t ∈ ts, u ∈ t.subtrees := by
  induction ts with
  | nil => simp [subtreesAll]
  | cons t ts ih =>
      rw [subtreesAll, List.mem_append, ih]
      simp

theorem self_mem_subtrees (t : Rose α) : t ∈ t.subtrees := by
  cases t with
  | node a ts => exact List.mem_cons_self

theorem mem_subtrees_iff {t u : Rose α} :
    u ∈ t.subtrees ↔ u = t ∨ ∃ c ∈ t.children, u ∈ c.subtrees := by
  cases t with
  | node a ts => rw [subtrees, List.mem_cons, mem_subtreesAll, children]

/-- What holds of all trees in a tree holds of the tree and in the trees below it. -/
theorem forall_mem_subtrees_node {R : Rose α → Prop} {a : α} {ts : List (Rose α)} :
    (∀ u ∈ (node a ts).subtrees, R u) ↔ R (node a ts) ∧ ∀ t ∈ ts, ∀ u ∈ t.subtrees, R u := by
  constructor
  · intro h
    refine ⟨h _ (self_mem_subtrees _), fun t ht u hu => h u ?_⟩
    exact mem_subtrees_iff.mpr (.inr ⟨t, ht, hu⟩)
  · rintro ⟨ha, hts⟩ u hu
    rcases mem_subtrees_iff.mp hu with rfl | ⟨t, ht, hu⟩
    · exact ha
    · exact hts t ht u hu

mutual

theorem mem_subtrees_trans {u w : Rose α} (hw : w ∈ u.subtrees) : (t : Rose α) →
    u ∈ t.subtrees → w ∈ t.subtrees
  | node a ts, hu => by
      rcases List.mem_cons.mp hu with rfl | hu
      · exact hw
      · exact List.mem_cons_of_mem _ (mem_subtreesAll_trans hw ts hu)

theorem mem_subtreesAll_trans {u w : Rose α} (hw : w ∈ u.subtrees) : (ts : List (Rose α)) →
    u ∈ subtreesAll ts → w ∈ subtreesAll ts
  | t :: ts, hu => by
      rcases List.mem_append.mp hu with hu | hu
      · exact List.mem_append_left _ (mem_subtrees_trans hw t hu)
      · exact List.mem_append_right _ (mem_subtreesAll_trans hw ts hu)

end

mutual

theorem map_label_subtrees : (t : Rose α) → t.subtrees.map label = t.preorder
  | node a ts => by rw [subtrees, List.map_cons, preorder, map_label_subtreesAll ts, label]

theorem map_label_subtreesAll : (ts : List (Rose α)) →
    (subtreesAll ts).map label = preorderAll ts
  | [] => rfl
  | t :: ts => by
      rw [subtreesAll, List.map_append, preorderAll, map_label_subtrees t,
        map_label_subtreesAll ts]

end

theorem label_mem_of_mem_subtrees {t u : Rose α} (h : u ∈ t.subtrees) :
    u.label ∈ t.preorder := by
  rw [← map_label_subtrees]
  exact List.mem_map_of_mem h

theorem exists_mem_subtrees {t : Rose α} {a : α} (h : a ∈ t.preorder) :
    ∃ u ∈ t.subtrees, u.label = a := by
  rw [← map_label_subtrees] at h
  exact List.mem_map.mp h

end Rose

namespace Schema

open Relation (ReflTransGen TransGen)

variable {s : Schema} {id k : NodeId} {r : Rose NodeId}

theorem subtree?_of_mem_children {q : Rose NodeId} (h : s.subtree? k = some r)
    (hq : q ∈ r.children) : s.subtree? q.label = some q := by
  obtain ⟨rfl, htraces⟩ := traces_of_subtree? h
  have hheight : r.height ≤ s.nodes.size + 1 := height_le_of_subtreeWithin? h
  obtain ⟨c, qs⟩ := r
  have hlower : q.height < (Rose.node c qs).height := Rose.height_lt_of_mem hq
  exact subtree?_of_traces (htraces.2.of_mem q hq) (by omega)

theorem children_of_subtree? (h : s.subtree? k = some r) :
    s.children k = r.children.map Rose.label := by
  obtain ⟨rfl, htraces⟩ := traces_of_subtree? h
  obtain ⟨c, qs⟩ := r
  exact htraces.1

theorem exists_subtree?_of_reaches (h : s.subtree? id = some r)
    (hk : ReflTransGen s.Owns id k) : ∃ q, s.subtree? k = some q := by
  obtain ⟨-, htraces⟩ := traces_of_subtree? h
  obtain ⟨q, rfl, hq, hle⟩ := exists_traces_of_mem htraces ((mem_preorder_iff h).mpr hk)
  exact ⟨q, subtree?_of_traces hq (Nat.le_trans hle (height_le_of_subtreeWithin? h))⟩

/-- The tree of a node: its attributes over the trees of its children. -/
theorem tree_eq_node (h : s.subtree? k = some r) :
    s.tree k = .node (s.attrs k) ((s.children k).map s.tree) := by
  have hchild : ∀ q ∈ r.children, s.tree q.label = q.map s.attrs := fun q hq => by
    rw [tree, subtree_eq (subtree?_of_mem_children h hq)]
  rw [tree, subtree_eq h, children_of_subtree? h, List.map_map]
  obtain ⟨rfl, -⟩ := traces_of_subtree? h
  obtain ⟨c, qs⟩ := r
  rw [Rose.map, Rose.label, Rose.mapAll_eq_map]
  congr 1
  exact List.map_congr_left fun q hq => (hchild q hq).symm

theorem tree_mem_subtrees (h : s.subtree? id = some r) (hk : ReflTransGen s.Owns id k) :
    s.tree k ∈ (s.tree id).subtrees := by
  induction hk with
  | refl => exact Rose.self_mem_subtrees _
  | @tail p c hp hc ih =>
      obtain ⟨q, hq⟩ := exists_subtree?_of_reaches h hp
      refine Rose.mem_subtrees_trans ?_ _ ih
      rw [tree_eq_node hq]
      exact Rose.mem_subtrees_iff.mpr (.inr ⟨_, List.mem_map_of_mem hc, Rose.self_mem_subtrees _⟩)

/-- The tree of a node below a node is one of the trees below its children. -/
theorem exists_child_of_transGen (h : s.subtree? id = some r) (hk : TransGen s.Owns id k) :
    ∃ t ∈ (s.tree id).children, s.tree k ∈ t.subtrees := by
  obtain ⟨c, hc, hck⟩ := TransGen.head'_iff.mp hk
  obtain ⟨q, hq⟩ := exists_subtree?_of_reaches h (.single hc)
  refine ⟨s.tree c, ?_, tree_mem_subtrees hq hck⟩
  rw [tree_eq_node h]
  exact List.mem_map_of_mem hc

/-! ## Two arenas with one tree of ids -/

variable {t : Schema}

/-- Below each node in the tree they have one tree too. -/
theorem exists_subtree?_of_same (h : s.subtree? id = some r) (h' : t.subtree? id = some r)
    (hk : ReflTransGen s.Owns id k) : ∃ q, s.subtree? k = some q ∧ t.subtree? k = some q := by
  induction hk with
  | refl => exact ⟨r, h, h'⟩
  | @tail p c _ hc ih =>
      obtain ⟨q, hq, hq'⟩ := ih
      rw [Owns, children_of_subtree? hq] at hc
      obtain ⟨u, hu, rfl⟩ := List.mem_map.mp hc
      exact ⟨u, subtree?_of_mem_children hq hu, subtree?_of_mem_children hq' hu⟩

/-- Where they show the same attributes on the tree of a node, they do so on every node in it. -/
theorem attrs_eq_of_tree_eq (h : s.subtree? id = some r) (h' : t.subtree? id = some r)
    (htree : s.tree id = t.tree id) (hk : ReflTransGen s.Owns id k) : s.attrs k = t.attrs k := by
  rw [tree, tree, subtree_eq h, subtree_eq h'] at htree
  have hlabels := congrArg Rose.preorder htree
  rw [Rose.preorder_map, Rose.preorder_map] at hlabels
  exact List.map_inj_left.mp hlabels k ((mem_preorder_iff h).mpr hk)

end Schema

end TypeOutline
