import TypeOutline.Proofs.Rendering.Renumbered

/-!
# Renumbering is exact

What `compact` leaves of a schema is described without the tables that it
works with (`Compacted`): the nodes of the two trees in their order, each
under its place in it, with every link renumbered and nothing else
changed. Since no link leads out of the trees, whatever is read off the
schema is read off the renumbered one (`Linked.moves_compact`). A schema
whose trees already fill the arena in their order is its own renumbering
(`compact_eq_self`), and the renumbered one is such a schema.
-/

namespace TypeOutline

namespace Schema

open Relation (ReflTransGen TransGen)

variable {s t : Schema} {k : NodeId}

/-! ## Places in the order -/

theorem place_eq_idxOf (hs : s.Linked) (hk : k ∈ s.order) : s.place k = s.order.idxOf k :=
  hs.ordered.place_eq (List.getElem?_idxOf hk)

theorem moved_eq_relink (hs : s.Linked) (hk : k ∈ s.order) :
    s.moved k = (s.nodeOf k).relink s.order.idxOf := by
  have hlt := hs.ordered.lt_size k hk
  have hid : (s.nodeOf k).id = k := hs.id_eq (node?_eq_nodeOf hlt)
  have hparent : (s.nodeOf k).parent.map s.place = (s.nodeOf k).parent.map s.order.idxOf := by
    rw [parent_nodeOf hlt]
    refine Option.map_congr fun p hp => ?_
    exact place_eq_idxOf hs (hs.mem_order_of_parent? hk hp)
  have hnode : (s.nodeOf k).children = s.children k := by
    rw [children, node?_eq_nodeOf hlt]
    rfl
  have hchildren : (s.nodeOf k).children.map s.place =
      (s.nodeOf k).children.map s.order.idxOf := by
    rw [hnode]
    exact List.map_congr_left fun c hc => place_eq_idxOf hs (hs.mem_order_of_mem_children hk hc)
  rw [moved, Node.relink, hid, place_eq_idxOf hs hk, hparent, hchildren]

/-- The nodes of the renumbered arena, from the first to the last. -/
theorem Linked.node?_compact_eq (hs : s.Linked) (i : Nat) : s.compact.node? i =
    (s.order[i]?).bind fun k => (s.node? k).map (Node.relink s.order.idxOf) := by
  rw [compact_eq hs hs.ordered, node?, List.getElem?_toArray, List.getElem?_map]
  cases hi : s.order[i]? with
  | none => rfl
  | some k =>
      have hk := List.mem_of_getElem? hi
      rw [Option.map_some, Option.bind_some, moved_eq_relink hs hk,
        node?_eq_nodeOf (hs.ordered.lt_size k hk)]
      rfl

theorem Linked.size_compact (hs : s.Linked) : s.compact.nodes.size = s.order.length := by
  rw [compact_eq hs hs.ordered, List.size_toArray, List.length_map]

/-! ## What is read off the renumbered schema -/

/-- No list of nodes of the trees, each met once, is longer than the renumbered arena. -/
theorem Linked.length_le_compact (hs : s.Linked) {ks : List NodeId} (hnodup : ks.Nodup)
    (hin : ∀ k ∈ ks, k ∈ s.order) : ks.length ≤ s.compact.nodes.size := by
  rw [hs.size_compact]
  exact (hnodup.subperm hin).length_le

theorem Linked.exists_descends (hs : s.Linked) (hk : k ∈ s.order) : ∃ top ks,
    top < s.nodes.size ∧ s.parent? top = none ∧ top ∈ s.order ∧ Descends s top k ks := by
  rcases hs.mem_order_iff.mp hk with h | h
  · obtain ⟨ks, hks⟩ := Schema.exists_descends h
    exact ⟨s.root, ks, hs.root_lt, hs.parent?_root, hs.root_mem_order, hks⟩
  · obtain ⟨ks, hks⟩ := Schema.exists_descends h
    exact ⟨s.typeRefs, ks, hs.typeRefs_lt, hs.parent?_typeRefs, hs.typeRefs_mem_order, hks⟩

/-- The nodes of both trees stand in the renumbered arena at their places in the order. -/
theorem Linked.moves_compact (hs : s.Linked) :
    Moves s s.compact (· ∈ s.order) s.order.idxOf where
  node?_eq {k} hk := by
    rw [hs.node?_compact_eq, List.getElem?_idxOf hk]
    rfl
  child hp hc := hs.mem_order_of_mem_children hp hc
  parent hc hp := hs.mem_order_of_parent? hc hp
  height_le {k r} hk hr := by
    have hin : ∀ x ∈ r.preorder, x ∈ s.order := fun x hx => by
      have hreach := (mem_preorder_iff hr).mp hx
      rw [hs.mem_order_iff] at hk ⊢
      exact hk.imp (·.trans hreach) (·.trans hreach)
    have hle := hs.length_le_compact (hs.nodup_of_subtree? hr) hin
    exact Nat.le_succ_of_le (Nat.le_trans r.height_le_length_preorder hle)
  length_le {k stops ns} hk hns := by
    obtain ⟨top, ks, hlt, htop, hmem, hks⟩ := hs.exists_descends hk
    have hacyclic := hs.not_transGen_of_parent?_none htop
    -- the way up is at most as long as the way down, which stays in the order
    obtain ⟨ns', hns', hlength⟩ := exists_ascends_of_descends hs hlt htop stops hks
    have hlength' := Nat.le_trans hlength (hks.length_le hs hlt hacyclic)
    have hfound := lineage?_eq_some_iff.mpr ⟨hns', Nat.le_succ_of_le hlength'⟩
    rw [hns] at hfound
    obtain rfl := Option.some.inj hfound
    have hin : ∀ x ∈ ks, x ∈ s.order := fun x hx => by
      have hreach := (hks.reaches x hx).1
      rw [hs.mem_order_iff] at hmem ⊢
      exact hmem.imp (·.trans hreach) (·.trans hreach)
    exact Nat.le_succ_of_le
      (Nat.le_trans hlength (hs.length_le_compact (hks.nodup hs hacyclic) hin))

theorem Linked.root_compact_eq (hs : s.Linked) : s.compact.root = s.order.idxOf s.root :=
  (root_compact hs).trans (place_eq_idxOf hs hs.root_mem_order)

theorem Linked.typeRefs_compact_eq (hs : s.Linked) :
    s.compact.typeRefs = s.order.idxOf s.typeRefs :=
  (typeRefs_compact hs).trans (place_eq_idxOf hs hs.typeRefs_mem_order)

/-! ## Renumbering again -/

/-- The trees of the renumbered schema fill its arena in their order. -/
theorem Linked.order_compact (hs : s.Linked) :
    s.compact.order = List.range s.compact.nodes.size := by
  obtain ⟨r, q, hr, hq⟩ := hs.exists_trees
  have hmoves := hs.moves_compact
  have hr' := hmoves.subtree?_eq hs.root_mem_order hr
  have hq' := hmoves.subtree?_eq hs.typeRefs_mem_order hq
  rw [← hs.root_compact_eq] at hr'
  rw [← hs.typeRefs_compact_eq] at hq'
  rw [order_eq hr' hq', Rose.preorder_map, Rose.preorder_map, ← List.map_append,
    ← order_eq hr hq, hs.size_compact]
  refine List.ext_getElem (by simp) fun i hi _ => ?_
  rw [List.length_map] at hi
  rw [List.getElem_map, List.getElem_range, hs.ordered.nodup.idxOf_getElem i hi]

theorem idxOf_range {n i : Nat} (h : i < n) : (List.range n).idxOf i = i := by
  have hlength : i < (List.range n).length := by rwa [List.length_range]
  have hget := List.nodup_range.idxOf_getElem i hlength
  rwa [List.getElem_range] at hget

/-- A schema whose trees fill its arena in their order is left as it is. -/
theorem compact_eq_self (hs : s.Linked) (horder : s.order = List.range s.nodes.size) :
    s.compact = s := by
  have hnode : ∀ i, s.compact.node? i = s.node? i := by
    intro i
    rw [hs.node?_compact_eq, horder]
    rcases Nat.lt_or_ge i s.nodes.size with hi | hi
    · obtain ⟨n, hn⟩ := lt_size_iff.mp hi
      have hid := hs.id_eq hn
      have hparent : n.parent.map (List.range s.nodes.size).idxOf = n.parent := by
        cases hp : n.parent with
        | none => rfl
        | some p =>
            have hup : s.parent? i = some p := by rw [parent?, hn]; exact hp
            have hlt := lt_size_of_mem_children (hs.mem_children_iff.mpr hup)
            rw [Option.map_some, idxOf_range hlt]
      have hchildren : n.children.map (List.range s.nodes.size).idxOf = n.children := by
        refine (List.map_congr_left fun c hc => ?_).trans (List.map_id _)
        have hdown : c ∈ s.children i := by rw [children, hn]; exact hc
        exact idxOf_range (hs.lt_size_of_mem hdown)
      rw [List.getElem?_range hi, Option.bind_some, hn, Option.map_some, Node.relink, hparent,
        hchildren, hid, idxOf_range hi, ← hid]
    · rw [node?_eq_none hi, List.getElem?_eq_none (by simpa using hi)]
      rfl
  have hroot : s.compact.root = s.root := by
    rw [hs.root_compact_eq, horder, idxOf_range hs.root_lt]
  have hrefs : s.compact.typeRefs = s.typeRefs := by
    rw [hs.typeRefs_compact_eq, horder, idxOf_range hs.typeRefs_lt]
  have hnodes : s.compact.nodes = s.nodes := Array.ext_getElem? hnode
  calc s.compact
    _ = .mk s.compact.nodes s.compact.root s.compact.typeRefs := rfl
    _ = s := by rw [hnodes, hroot, hrefs]

/-! ## The main result -/

/-- `t` holds the nodes of the trees of `s` in their order, and nothing else. -/
structure Compacted (s t : Schema) : Prop where
  /-- The arena is as large as the trees. -/
  arenaSize_eq : t.arenaSize = s.size
  /-- Each place holds the node that stands there in the order, with its links renumbered. -/
  node?_eq : ∀ i, t.node? i = (s.order[i]?).bind fun k => (s.node? k).map fun n =>
    { n with
      id := i
      parent := n.parent.map s.order.idxOf
      children := n.children.map s.order.idxOf }
  root_eq : t.root = s.order.idxOf s.root
  typeRefs_eq : t.typeRefs = s.order.idxOf s.typeRefs
  /-- No link leads to a node without a place. -/
  closed : ∀ k ∈ s.order, (∀ p, s.parent? k = some p → p ∈ s.order)
    ∧ ∀ c ∈ s.children k, c ∈ s.order
  dump_eq : t.dump = s.dump
  sortedChildren_eq : ∀ k ∈ s.order,
    t.sortedChildren (s.order.idxOf k) = (s.sortedChildren k).map s.order.idxOf
  lines_eq : ∀ d o url, t.lines d o url = s.lines d o url
    ∧ t.linesFault d o url = s.linesFault d o url
  elementLines_eq : ∀ k ∈ s.order, ∀ d o url,
    t.elementLines d o url (s.order.idxOf k) = s.elementLines d o url k
      ∧ t.elementFaults d o url (s.order.idxOf k) = s.elementFaults d o url k
  /-- Nothing is detached. -/
  reached : ∀ i < t.arenaSize,
    ReflTransGen t.Owns t.root i ∨ ReflTransGen t.Owns t.typeRefs i

theorem Linked.compacted (hs : s.Linked) : Compacted s s.compact := by
  obtain ⟨r, q, hr, hq⟩ := hs.exists_trees
  have hmoves := hs.moves_compact
  obtain ⟨-, -, hdump, hlines⟩ := hmoves.schema_eq hs hs.root_mem_order hs.typeRefs_mem_order
    hs.root_compact_eq hs.typeRefs_compact_eq
  refine
    { arenaSize_eq := ?_, node?_eq := fun i => ?_, root_eq := hs.root_compact_eq,
      typeRefs_eq := hs.typeRefs_compact_eq, closed := fun k hk => ?_, dump_eq := hdump,
      sortedChildren_eq := fun k hk => hmoves.sortedChildren_eq hk, lines_eq := hlines,
      elementLines_eq := fun k hk d o url => ?_, reached := fun i hi => ?_ }
  · rw [arenaSize, hs.size_compact, order, List.length_append, size]
  · rw [hs.node?_compact_eq]
    refine Option.bind_congr fun k hk => Option.map_congr fun n hn => ?_
    have hid : s.order.idxOf n.id = i := by
      rw [hs.id_eq hn, ← place_eq_idxOf hs (List.mem_of_getElem? hk), hs.ordered.place_eq hk]
    rw [Node.relink, hid]
  · exact ⟨fun p => hs.mem_order_of_parent? hk, fun c => hs.mem_order_of_mem_children hk⟩
  · obtain ⟨top, ks, hlt, htop, -, hks⟩ := hs.exists_descends hk
    have hreaches := (hks.reaches k (by cases hks <;> simp)).1
    exact hmoves.elementLines_eq_of_reaches hs hlt htop hreaches hk d o url
  · rw [← hs.compact.mem_order_iff, hs.order_compact]
    exact List.mem_range.mpr hi

/-- Renumbering a schema that edits lead to comes to an end and is exact, and the schema that it
leaves has nothing more to renumber. -/
theorem compact?_of_reached (h : s.Reached) : s.compact? = some s.compact
    ∧ s.sizeFaults = false ∧ s.compactFaults = false
    ∧ (∃ r q, s.Forest r q ∧ s.order = r.preorder ++ q.preorder)
    ∧ Compacted s s.compact
    ∧ s.compact.Reached ∧ s.compact.compact? = some s.compact := by
  have hs := h.linked
  obtain ⟨r, q, hforest⟩ := hs.exists_forest
  have hallowed : Operation.compact.Allowed s := trivial
  have hrun : Operation.compact.run? s = some s.compact :=
    (Operation.run?_eq_perform? hs hallowed).trans hs.compact?.1
  refine ⟨hs.compact?.1, hs.sizeFaults_eq_false, hs.compactFaults_eq_false,
    ⟨r, q, hforest, order_eq hforest.subtree?_root hforest.subtree?_typeRefs⟩, hs.compacted,
    h.edit (e := .operation .compact) hallowed hrun, ?_⟩
  rw [hs.compact.compact?.1, compact_eq_self hs.compact hs.order_compact]

/-- Of two nodes that stand below each other nothing is left, of a copy that was put below the
other top everything. -/
theorem compact?_of_reached_knot : ∃ s, Operation.runAll? .empty Operation.knot = some s
    ∧ s.Reached ∧ s.arenaSize = 6 ∧ s.order = [0, 1, 4, 5]
    ∧ s.compact? = some s.compact ∧ Compacted s s.compact ∧ s.compact.arenaSize = 4
    ∧ s.compact.node? 2 = some { name := "a", id := 2, parent := some 1, children := [3] }
    ∧ s.compact.compact? = some s.compact := by
  obtain ⟨s, hrun, -⟩ := Operation.exists_runAll?_of_linked sound_empty.toLinked
    Operation.allowedAll_knot
  have hs : s.Reached := Reached.runAll? .refl Operation.allowedAll_knot hrun
  obtain ⟨hcompact, -, -, -, hexact, -, hagain⟩ := compact?_of_reached hs
  have hends : (Operation.runAll? .empty Operation.knot).map
      (fun s => (s.arenaSize, s.order, s.size, s.node? 4)) = some (6, [0, 1, 4, 5], 4,
        some { name := "a", id := 4, parent := some 1, children := [5] }) := by rfl
  rw [hrun, Option.map_some, Option.some.injEq, Prod.mk.injEq, Prod.mk.injEq,
    Prod.mk.injEq] at hends
  obtain ⟨harena, horder, hsize, hnode⟩ := hends
  refine ⟨s, hrun, hs, harena, horder, hcompact, hexact, hexact.arenaSize_eq.trans hsize, ?_,
    hagain⟩
  rw [hexact.node?_eq, horder]
  show (s.node? 4).map _ = _
  rw [hnode]
  rfl

end Schema

end TypeOutline
