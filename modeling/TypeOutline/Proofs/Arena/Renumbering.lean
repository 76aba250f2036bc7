import TypeOutline.Proofs.Arena.Descent
import Mathlib.Data.List.TakeWhile

/-!
# Renumbering

Renumbering moves each node of the two trees to its place in the order of
the trees and follows every link. In an arena that keeps the ownership
law no node has two places and no link leads out of the trees, so both
trees are read from the renumbered arena as from the old one
(`tree_compact_of_sublist`).
-/

namespace TypeOutline

namespace Schema

open Relation (ReflTransGen)

variable {s : Schema}

/-! ## Places -/

theorem getElem?_foldl_setIfInBounds {k : NodeId} : ∀ {placed : List (NodeId × Nat)}
    {m : Array (Option Nat)}, k ∉ placed.map Prod.fst →
      (placed.foldl (fun m e => m.setIfInBounds e.1 (some e.2)) m)[k]? = m[k]?
  | [], _, _ => rfl
  | e :: placed, m, h => by
      rw [List.map_cons, List.mem_cons, not_or] at h
      rw [List.foldl_cons, getElem?_foldl_setIfInBounds h.2,
        Array.getElem?_setIfInBounds_ne (Ne.symm h.1)]

theorem getElem?_foldl_of_mem {k : NodeId} {i : Nat} : ∀ {placed : List (NodeId × Nat)}
    {m : Array (Option Nat)}, (placed.map Prod.fst).Nodup → (k, i) ∈ placed → k < m.size →
      (placed.foldl (fun m e => m.setIfInBounds e.1 (some e.2)) m)[k]? = some (some i)
  | [], _, _, h, _ => absurd h List.not_mem_nil
  | e :: placed, m, hnodup, h, hk => by
      rw [List.map_cons, List.nodup_cons] at hnodup
      rw [List.foldl_cons]
      rcases List.mem_cons.mp h with rfl | h
      · rw [getElem?_foldl_setIfInBounds hnodup.1, Array.getElem?_setIfInBounds_self_of_lt hk]
      · exact getElem?_foldl_of_mem hnodup.2 h (by simpa using hk)

/-- An id that is placed once has its place. -/
theorem getElem?_places {placed : List (NodeId × Nat)} {arena i : Nat} {k : NodeId}
    (hnodup : (placed.map Prod.fst).Nodup) (h : (k, i) ∈ placed) (hk : k < arena) :
    (places placed arena)[k]?.join = some i := by
  rw [places, getElem?_foldl_of_mem hnodup h (by simpa using hk)]
  rfl

/-- The new id of a node. -/
def place (s : Schema) (id : NodeId) : NodeId :=
  ((places s.order.zipIdx s.nodes.size)[id]?.join).getD id

/-- The two trees hold no id twice, and none from outside the arena. -/
structure Ordered (s : Schema) : Prop where
  nodup : s.order.Nodup
  lt_size : ∀ k ∈ s.order, k < s.nodes.size

theorem Ordered.place_eq (h : s.Ordered) {i : Nat} {k : NodeId} (hk : s.order[i]? = some k) :
    s.place k = i := by
  have hnodup : (s.order.zipIdx.map Prod.fst).Nodup := by
    rw [List.zipIdx_map_fst]
    exact h.nodup
  rw [place, getElem?_places hnodup (List.mk_mem_zipIdx_iff_getElem?.mpr hk)
    (h.lt_size k (List.mem_of_getElem? hk))]
  rfl

/-! ## The renumbered arena -/

/-- The node of an id; a blank one outside of the arena. -/
def nodeOf (s : Schema) (id : NodeId) : Node := (s.node? id).getD { name := "", id := id }

theorem node?_eq_nodeOf {k : NodeId} (hk : k < s.nodes.size) : s.node? k = some (s.nodeOf k) := by
  obtain ⟨n, hn⟩ := lt_size_iff.mp hk
  rw [nodeOf, hn]
  rfl

theorem parent_nodeOf {k : NodeId} (hk : k < s.nodes.size) :
    (s.nodeOf k).parent = s.parent? k := by
  rw [parent?, node?_eq_nodeOf hk]
  rfl

theorem attrs_nodeOf {k : NodeId} (hk : k < s.nodes.size) :
    (s.nodeOf k).toAttributes = s.attrs k := by
  rw [attrs, node?_eq_nodeOf hk]
  rfl

theorem Ordered.orderedNodes_eq (h : s.Ordered) : s.orderedNodes = s.order.map s.nodeOf := by
  have hnodup : (s.order.zipIdx.reverse.map Prod.fst).Nodup := by
    rw [List.map_reverse, List.nodup_reverse, List.zipIdx_map_fst]
    exact h.nodup
  have hsome : ∀ e ∈ s.order.zipIdx,
      (if (places s.order.zipIdx.reverse s.nodes.size)[e.1]?.join = some e.2 then s.node? e.1
        else none) = some (s.nodeOf e.1) := by
    intro e he
    have hlt := h.lt_size e.1 (List.fst_mem_of_mem_zipIdx he)
    rw [if_pos (getElem?_places hnodup (List.mem_reverse.mpr he) hlt), node?_eq_nodeOf hlt]
  calc s.orderedNodes
    _ = s.order.zipIdx.filterMap (some ∘ (s.nodeOf ·.1)) := List.filterMap_congr hsome
    _ = s.order.zipIdx.map (s.nodeOf ·.1) := by rw [List.filterMap_eq_map]
    _ = (s.order.zipIdx.map Prod.fst).map s.nodeOf := by rw [List.map_map]; rfl
    _ = s.order.map s.nodeOf := by rw [List.zipIdx_map_fst]

/-- A node with its links renumbered. -/
def moved (s : Schema) (id : NodeId) : Node :=
  { s.nodeOf id with
    id := s.place (s.nodeOf id).id
    parent := (s.nodeOf id).parent.map s.place
    children := (s.nodeOf id).children.map s.place }

theorem Linked.not_strays (hs : s.Linked) {k : NodeId} (hk : k < s.nodes.size) :
    s.strays (s.nodeOf k) = false := by
  have hid := hs.id_eq (node?_eq_nodeOf hk)
  rw [strays, hid, parent_nodeOf hk]
  cases hp : s.parent? k with
  | none => simpa [has] using hk
  | some p =>
      have hlt := lt_size_of_mem_children (hs.mem_children_iff.mpr hp)
      simp [has, hk, hlt]

theorem compact_eq (hs : s.Linked) (h : s.Ordered) :
    s.compact = { nodes := (s.order.map s.moved).toArray, root := s.place s.root,
                  typeRefs := s.place s.typeRefs } := by
  have hnone : ∀ n ∈ s.orderedNodes, s.strays n = false := by
    intro n hn
    rw [h.orderedNodes_eq] at hn
    obtain ⟨k, hk, rfl⟩ := List.mem_map.mp hn
    exact hs.not_strays (h.lt_size k hk)
  have hfaults : s.compactFaults = false := by
    rw [compactFaults, List.any_eq_false]
    intro n hn
    rw [hnone n hn]
    decide
  have htake : s.orderedNodes.takeWhile (!s.strays ·) = s.order.map s.nodeOf := by
    rw [← h.orderedNodes_eq, List.takeWhile_eq_self_iff]
    intro n hn
    rw [hnone n hn]
    rfl
  rw [compact, hfaults, htake, List.map_map]
  rfl

theorem node?_compact (hs : s.Linked) (h : s.Ordered) {k : NodeId} (hk : k ∈ s.order) :
    s.compact.node? (s.place k) = some (s.moved k) := by
  obtain ⟨i, hi⟩ := List.mem_iff_getElem?.mp hk
  rw [h.place_eq hi, compact_eq hs h, node?]
  simp [hi]

theorem attrs_compact (hs : s.Linked) (h : s.Ordered) {k : NodeId} (hk : k ∈ s.order) :
    s.compact.attrs (s.place k) = s.attrs k := by
  rw [attrs, node?_compact hs h hk, attrs, node?_eq_nodeOf (h.lt_size k hk)]
  rfl

theorem children_compact (hs : s.Linked) (h : s.Ordered) {k : NodeId} (hk : k ∈ s.order) :
    s.compact.children (s.place k) = (s.children k).map s.place := by
  rw [children, node?_compact hs h hk, children, node?_eq_nodeOf (h.lt_size k hk)]
  rfl

/-! ## Its trees -/

mutual

/-- A tree is followed in another arena if all its child lists are. -/
theorem Traces.map {s' : Schema} {f : NodeId → NodeId} : {r : Rose NodeId} → Traces s r →
    (∀ k ∈ r.preorder, s'.children (f k) = (s.children k).map f) → Traces s' (r.map f)
  | .node id rs, h, hf => by
      refine ⟨?_, TracesAll.map h.2 fun k hk => hf k (List.mem_cons_of_mem id hk)⟩
      rw [hf id List.mem_cons_self, h.1, Rose.mapAll_eq_map, List.map_map, List.map_map]
      exact List.map_congr_left fun r _ => (Rose.label_map f r).symm

theorem TracesAll.map {s' : Schema} {f : NodeId → NodeId} : {rs : List (Rose NodeId)} →
    TracesAll s rs → (∀ k ∈ Rose.preorderAll rs, s'.children (f k) = (s.children k).map f) →
      TracesAll s' (Rose.mapAll f rs)
  | [], _, _ => trivial
  | _ :: _, h, hf =>
      ⟨h.1.map fun k hk => hf k (List.mem_append_left _ hk),
        TracesAll.map h.2 fun k hk => hf k (List.mem_append_right _ hk)⟩

end

theorem tree_eq_of_subtree? {id : NodeId} {r : Rose NodeId} (h : s.subtree? id = some r) :
    s.tree id = r.map s.attrs := by
  rw [tree, subtree_eq h]

theorem tree_compact_of_sublist (hs : s.Linked) (h : s.Ordered) {id : NodeId} {r : Rose NodeId}
    (hr : s.subtree? id = some r) (hin : r.preorder.Sublist s.order) :
    s.compact.tree (s.place id) = s.tree id := by
  obtain ⟨hlabel, htraces⟩ := traces_of_subtree? hr
  have hmoved : Traces s.compact (r.map s.place) :=
    htraces.map fun k hk => children_compact hs h (hin.subset hk)
  have hsize : s.compact.nodes.size = s.order.length := by
    rw [compact_eq hs h]
    simp
  have hheight : (r.map s.place).height ≤ s.compact.nodes.size + 1 := by
    rw [Rose.height_map, hsize]
    exact Nat.le_succ_of_le (Nat.le_trans r.height_le_length_preorder hin.length_le)
  have hfound := subtree?_of_traces hmoved hheight
  rw [Rose.label_map, hlabel] at hfound
  rw [tree_eq_of_subtree? hfound, tree_eq_of_subtree? hr]
  exact Rose.map_map_of_eq r fun k hk => attrs_compact hs h (hin.subset hk)

/-! ## The order of an arena -/

theorem Linked.lt_size_of_traces (hs : s.Linked) {r : Rose NodeId} (h : Traces s r)
    (htop : r.label < s.nodes.size) : ∀ k ∈ r.preorder, k < s.nodes.size := by
  intro k hk
  rcases exists_parent_of_traces h hk with rfl | ⟨p, -, hkp⟩
  · exact htop
  · exact hs.lt_size_of_mem hkp

/-- A node without a parent is in no tree but its own. -/
theorem Linked.not_mem_of_traces (hs : s.Linked) {r : Rose NodeId} (h : Traces s r) {k : NodeId}
    (hk : s.parent? k = none) (hne : k ≠ r.label) : k ∉ r.preorder := by
  intro hmem
  rcases exists_parent_of_traces h hmem with heq | ⟨p, -, hkp⟩
  · exact hne heq
  · exact hs.not_mem_of_parent?_none hk p hkp

/-- Both trees have an end, since no top is on a cycle. -/
theorem Linked.exists_trees (hs : s.Linked) :
    ∃ r q, s.subtree? s.root = some r ∧ s.subtree? s.typeRefs = some q := by
  obtain ⟨r, hr⟩ := hs.exists_subtree? hs.root_lt (hs.not_transGen_of_parent?_none hs.parent?_root)
  obtain ⟨q, hq⟩ := hs.exists_subtree? hs.typeRefs_lt
    (hs.not_transGen_of_parent?_none hs.parent?_typeRefs)
  exact ⟨r, q, hr, hq⟩

theorem order_eq {r q : Rose NodeId} (hr : s.subtree? s.root = some r)
    (hq : s.subtree? s.typeRefs = some q) : s.order = r.preorder ++ q.preorder := by
  rw [order, preorder, preorder, subtree_eq hr, subtree_eq hq]

/-- The order holds the two tops and what is reached from them. -/
theorem Linked.mem_order_iff (hs : s.Linked) {k : NodeId} :
    k ∈ s.order ↔ ReflTransGen s.Owns s.root k ∨ ReflTransGen s.Owns s.typeRefs k := by
  obtain ⟨r, q, hr, hq⟩ := hs.exists_trees
  rw [order_eq hr hq, List.mem_append, mem_preorder_iff hr, mem_preorder_iff hq]

theorem Linked.ordered (hs : s.Linked) : s.Ordered := by
  obtain ⟨r, q, hr, hq⟩ := hs.exists_trees
  obtain ⟨hrlabel, hrtraces⟩ := traces_of_subtree? hr
  obtain ⟨hqlabel, hqtraces⟩ := traces_of_subtree? hq
  have horder := order_eq hr hq
  refine ⟨?_, ?_⟩
  · rw [horder]
    refine List.nodup_append.mpr ⟨hs.nodup_of_subtree? hr, hs.nodup_of_subtree? hq, ?_⟩
    intro x hx y hy hxy
    subst hxy
    refine disjoint_of_traces hs hrtraces hqtraces (rank_lt_of_subtree? hr) ?_ ?_ x hx hy
    · refine hs.not_mem_of_traces hqtraces ?_ ?_
      · rw [hrlabel]
        exact hs.parent?_root
      · rw [hrlabel, hqlabel]
        exact hs.root_ne_typeRefs
    · refine hs.not_mem_of_traces hrtraces ?_ ?_
      · rw [hqlabel]
        exact hs.parent?_typeRefs
      · rw [hrlabel, hqlabel]
        exact Ne.symm hs.root_ne_typeRefs
  · intro k hk
    rw [horder] at hk
    rcases List.mem_append.mp hk with hk | hk
    · exact hs.lt_size_of_traces hrtraces (by rw [hrlabel]; exact hs.root_lt) k hk
    · exact hs.lt_size_of_traces hqtraces (by rw [hqlabel]; exact hs.typeRefs_lt) k hk

/-- No node is reached from both tops. -/
theorem Linked.not_reaches_of_reaches (hs : s.Linked) {k : NodeId}
    (hroot : ReflTransGen s.Owns s.root k) : ¬ ReflTransGen s.Owns s.typeRefs k := by
  intro hrefs
  obtain ⟨r, q, hr, hq⟩ := hs.exists_trees
  have hnodup := hs.ordered.nodup
  rw [order_eq hr hq] at hnodup
  obtain ⟨-, -, hdisjoint⟩ := List.nodup_append.mp hnodup
  exact hdisjoint k ((mem_preorder_iff hr).mpr hroot) k ((mem_preorder_iff hq).mpr hrefs) rfl

theorem Linked.root_mem_order (hs : s.Linked) : s.root ∈ s.order :=
  hs.mem_order_iff.mpr (.inl .refl)

theorem Linked.typeRefs_mem_order (hs : s.Linked) : s.typeRefs ∈ s.order :=
  hs.mem_order_iff.mpr (.inr .refl)

/-- With a node the order holds its children, -/
theorem Linked.mem_order_of_mem_children (hs : s.Linked) {p c : NodeId} (hp : p ∈ s.order)
    (hc : c ∈ s.children p) : c ∈ s.order := by
  rw [hs.mem_order_iff] at hp ⊢
  exact hp.imp (·.tail hc) (·.tail hc)

/-- and its parent. -/
theorem Linked.mem_order_of_parent? (hs : s.Linked) {p c : NodeId} (hc : c ∈ s.order)
    (hp : s.parent? c = some p) : p ∈ s.order := by
  have hup : ∀ {t}, s.parent? t = none → ReflTransGen s.Owns t c → ReflTransGen s.Owns t p := by
    intro t ht h
    rcases ReflTransGen.cases_tail h with rfl | ⟨q, hq, hqc⟩
    · rw [ht] at hp
      cases hp
    · obtain rfl := hs.parent_unique hqc (hs.mem_children_iff.mpr hp)
      exact hq
  rw [hs.mem_order_iff] at hc ⊢
  exact hc.imp (hup hs.parent?_root) (hup hs.parent?_typeRefs)

/-! ## Renumbering keeps the ownership law -/

theorem Ordered.place_injective (h : s.Ordered) {k l : NodeId} (hk : k ∈ s.order)
    (hl : l ∈ s.order) (heq : s.place k = s.place l) : k = l := by
  obtain ⟨i, hi⟩ := List.mem_iff_getElem?.mp hk
  obtain ⟨j, hj⟩ := List.mem_iff_getElem?.mp hl
  rw [h.place_eq hi, h.place_eq hj] at heq
  rw [heq, hj] at hi
  exact (Option.some.inj hi).symm

/-- Every node of the renumbered arena is a moved one. -/
theorem exists_of_node?_compact (hs : s.Linked) {i : NodeId} {n : Node}
    (hn : s.compact.node? i = some n) : ∃ k ∈ s.order, s.place k = i ∧ s.moved k = n := by
  rw [compact_eq hs hs.ordered, node?, List.getElem?_toArray, List.getElem?_map] at hn
  obtain ⟨k, hk, hmoved⟩ := Option.map_eq_some_iff.mp hn
  exact ⟨k, List.mem_of_getElem? hk, hs.ordered.place_eq hk, hmoved⟩

theorem exists_of_lt_size_compact (hs : s.Linked) {i : NodeId}
    (hi : i < s.compact.nodes.size) : ∃ k ∈ s.order, s.place k = i := by
  obtain ⟨n, hn⟩ := lt_size_iff.mp hi
  obtain ⟨k, hk, hplace, -⟩ := exists_of_node?_compact hs hn
  exact ⟨k, hk, hplace⟩

theorem place_lt (hs : s.Linked) {k : NodeId} (hk : k ∈ s.order) :
    s.place k < s.compact.nodes.size :=
  lt_size_iff.mpr ⟨_, node?_compact hs hs.ordered hk⟩

theorem parent?_compact (hs : s.Linked) {k : NodeId} (hk : k ∈ s.order) :
    s.compact.parent? (s.place k) = (s.parent? k).map s.place := by
  rw [parent?, node?_compact hs hs.ordered hk, parent?, node?_eq_nodeOf (hs.ordered.lt_size k hk)]
  rfl

theorem root_compact (hs : s.Linked) : s.compact.root = s.place s.root := by
  rw [compact_eq hs hs.ordered]

theorem typeRefs_compact (hs : s.Linked) : s.compact.typeRefs = s.place s.typeRefs := by
  rw [compact_eq hs hs.ordered]

theorem Linked.compact (hs : s.Linked) : s.compact.Linked where
  id_eq {i n} hn := by
    obtain ⟨k, hk, rfl, rfl⟩ := exists_of_node?_compact hs hn
    exact congrArg s.place (hs.id_eq (node?_eq_nodeOf (hs.ordered.lt_size k hk)))
  mem_children_iff {p c} := by
    constructor
    · intro hc
      obtain ⟨p, hp, rfl⟩ := exists_of_lt_size_compact hs (lt_size_of_mem_children hc)
      rw [children_compact hs hs.ordered hp] at hc
      obtain ⟨d, hd, rfl⟩ := List.mem_map.mp hc
      rw [parent?_compact hs (hs.mem_order_of_mem_children hp hd), hs.mem_children_iff.mp hd]
      rfl
    · intro hp
      obtain ⟨c, hc, rfl⟩ := exists_of_lt_size_compact hs (lt_size_of_parent? hp)
      rw [parent?_compact hs hc] at hp
      obtain ⟨q, hq, rfl⟩ := Option.map_eq_some_iff.mp hp
      rw [children_compact hs hs.ordered (hs.mem_order_of_parent? hc hq)]
      exact List.mem_map_of_mem (hs.mem_children_iff.mpr hq)
  nodup_children i := by
    rcases Nat.lt_or_ge i s.compact.nodes.size with hi | hi
    · obtain ⟨k, hk, rfl⟩ := exists_of_lt_size_compact hs hi
      rw [children_compact hs hs.ordered hk]
      refine (hs.nodup_children k).map_on fun x hx y hy => ?_
      exact hs.ordered.place_injective (hs.mem_order_of_mem_children hk hx)
        (hs.mem_order_of_mem_children hk hy)
    · rw [children, node?_eq_none hi]
      exact List.nodup_nil
  root_lt := by
    rw [root_compact hs]
    exact place_lt hs hs.root_mem_order
  typeRefs_lt := by
    rw [typeRefs_compact hs]
    exact place_lt hs hs.typeRefs_mem_order
  root_ne_typeRefs := by
    rw [root_compact hs, typeRefs_compact hs]
    intro heq
    exact hs.root_ne_typeRefs
      (hs.ordered.place_injective hs.root_mem_order hs.typeRefs_mem_order heq)
  parent?_root := by
    rw [root_compact hs, parent?_compact hs hs.root_mem_order, hs.parent?_root]
    rfl
  parent?_typeRefs := by
    rw [typeRefs_compact hs, parent?_compact hs hs.typeRefs_mem_order, hs.parent?_typeRefs]
    rfl

/-- Renumbering always comes to an end and changes neither tree. -/
theorem Linked.compact? (hs : s.Linked) : s.compact? = some s.compact
    ∧ s.compact.tree s.compact.root = s.tree s.root
    ∧ s.compact.tree s.compact.typeRefs = s.tree s.typeRefs := by
  obtain ⟨r, q, hr, hq⟩ := hs.exists_trees
  have horder := order_eq hr hq
  refine ⟨?_, ?_, ?_⟩
  · rw [Schema.compact?, hr, hq]
    rfl
  · rw [root_compact hs]
    exact tree_compact_of_sublist hs hs.ordered hr (horder ▸ List.sublist_append_left _ _)
  · rw [typeRefs_compact hs]
    exact tree_compact_of_sublist hs hs.ordered hq (horder ▸ List.sublist_append_right _ _)

end Schema

end TypeOutline
