import TypeOutline.Proofs.Arena.Compaction
import TypeOutline.Proofs.Derivation.Faithful

/-!
# The ids of a derived schema

The nodes of a derived schema are numbered in the order of its trees, the
value before the definitions, without gaps (`exists_numbered`). So the
ids of a tree can be read off its shape: derived schemas whose trees have
one shape have the same ids in them (`sameIds_of_shape`).
-/

namespace TypeOutline

/-! ## Trees of one shape -/

namespace Rose

variable {α β : Type}

/-- The tree without its labels. -/
def shape (t : Rose α) : Rose Unit := t.map fun _ => ()

theorem shape_map (f : α → β) (t : Rose α) : (t.map f).shape = t.shape :=
  map_map_of_eq t fun _ _ => rfl

theorem length_preorder_shape (t : Rose α) : t.shape.preorder.length = t.preorder.length := by
  rw [shape, preorder_map, List.length_map]

theorem length_preorder_congr {t : Rose α} {u : Rose β} (h : t.shape = u.shape) :
    t.preorder.length = u.preorder.length := by
  rw [← length_preorder_shape t, h, length_preorder_shape]

mutual

/-- A tree is known by its shape and its labels in their order. -/
theorem eq_of_shape_eq : {t u : Rose α} → t.shape = u.shape → t.preorder = u.preorder → t = u
  | .node a ts, .node b us, hshape, hlabels => by
      obtain ⟨rfl, hbelow⟩ := List.cons.inj hlabels
      rw [all_eq_of_shape_eq (Rose.node.inj hshape).2 hbelow]

theorem all_eq_of_shape_eq : {ts us : List (Rose α)} →
    mapAll (fun _ => ()) ts = mapAll (fun _ => ()) us → preorderAll ts = preorderAll us → ts = us
  | [], [], _, _ => rfl
  | t :: ts, u :: us, hshapes, hlabels => by
      obtain ⟨hshape, hrest⟩ := List.cons.inj hshapes
      obtain ⟨hfirst, hothers⟩ := List.append_inj hlabels (length_preorder_congr hshape)
      rw [eq_of_shape_eq hshape hfirst, all_eq_of_shape_eq hrest hothers]

end

theorem label_eq_of_preorder_eq_range' {r : Rose Nat} {start count : Nat}
    (h : r.preorder = List.range' start count) : r.label = start := by
  obtain ⟨a, rs⟩ := r
  cases count with
  | zero => exact absurd h (List.cons_ne_nil a _)
  | succ count => exact (List.cons.inj h).1

end Rose

/-! ## The numbers of the nodes -/

namespace Schema

variable {s t : Schema}

/-- The trees are numbered from the first node of the value to the last node of the definitions. -/
structure Numbered (s : Schema) (r q : Rose NodeId) : Prop where
  subtree?_root : s.subtree? s.root = some r
  subtree?_typeRefs : s.subtree? s.typeRefs = some q
  preorder_root : r.preorder = List.range' 0 r.preorder.length
  preorder_typeRefs : q.preorder = List.range' r.preorder.length q.preorder.length

theorem exists_numbered_of_order (hs : s.Linked) (horder : s.order = List.range s.nodes.size) :
    ∃ r q, s.Numbered r q := by
  obtain ⟨r, q, hr, hq⟩ := hs.exists_trees
  rw [order_eq hr hq] at horder
  have hlength : r.preorder.length + q.preorder.length = s.nodes.size := by
    rw [← List.length_append, horder, List.length_range]
  rw [List.range_eq_range', ← hlength, ← List.range'_append_1, Nat.zero_add] at horder
  obtain ⟨hroot, hrefs⟩ := List.append_inj horder (by rw [List.length_range'])
  exact ⟨r, q, hr, hq, hroot, hrefs⟩

namespace Numbered

variable {r q r' q' : Rose NodeId}

theorem root_eq (h : s.Numbered r q) : s.root = 0 :=
  (traces_of_subtree? h.subtree?_root).1.symm.trans
    (Rose.label_eq_of_preorder_eq_range' h.preorder_root)

theorem typeRefs_eq (h : s.Numbered r q) : s.typeRefs = r.preorder.length :=
  (traces_of_subtree? h.subtree?_typeRefs).1.symm.trans
    (Rose.label_eq_of_preorder_eq_range' h.preorder_typeRefs)

theorem shape_root (h : s.Numbered r q) : r.shape = (s.tree s.root).shape := by
  rw [tree_eq_of_subtree? h.subtree?_root, Rose.shape_map]

theorem shape_typeRefs (h : s.Numbered r q) : q.shape = (s.tree s.typeRefs).shape := by
  rw [tree_eq_of_subtree? h.subtree?_typeRefs, Rose.shape_map]

/-- Values whose trees have one shape have one numbering. -/
theorem eq_of_shape_root (h : s.Numbered r q) (h' : t.Numbered r' q')
    (hshape : (s.tree s.root).shape = (t.tree t.root).shape) : r = r' := by
  rw [← h.shape_root, ← h'.shape_root] at hshape
  refine Rose.eq_of_shape_eq hshape ?_
  rw [h.preorder_root, h'.preorder_root, Rose.length_preorder_congr hshape]

/-- The definitions are numbered from where the value ends. -/
theorem eq_of_shape_typeRefs (h : s.Numbered r q) (h' : t.Numbered r q')
    (hshape : (s.tree s.typeRefs).shape = (t.tree t.typeRefs).shape) : q = q' := by
  rw [← h.shape_typeRefs, ← h'.shape_typeRefs] at hshape
  refine Rose.eq_of_shape_eq hshape ?_
  rw [h.preorder_typeRefs, h'.preorder_typeRefs, Rose.length_preorder_congr hshape]

end Numbered

end Schema

variable {types : Types} {v : Value} {s : Schema}

theorem order_of_derive? (h : derive? types v = some s) : s.order = List.range s.nodes.size := by
  have hwalk := rel_walk? types v
  obtain ⟨t, ht, hcompact⟩ := Option.bind_eq_some_iff.mp h
  rw [ht] at hwalk
  generalize outline types (v.depthBound types) (.start v) = y at hwalk
  cases hwalk with
  | some hvisited =>
      have hs := hvisited.sound.toLinked
      obtain rfl := Option.some.inj (hs.compact?.1.symm.trans hcompact)
      exact hs.order_compact

/-- A derived schema is numbered in the order of its trees. -/
theorem exists_numbered (h : derive? types v = some s) : ∃ r q, s.Numbered r q :=
  Schema.exists_numbered_of_order (linked_of_derive? h) (order_of_derive? h)

/-- It has no nodes but those of its trees. -/
theorem size_of_numbered (h : derive? types v = some s) {r q : Rose NodeId}
    (hnumbered : s.Numbered r q) : s.nodes.size = r.preorder.length + q.preorder.length := by
  have horder := order_of_derive? h
  rw [Schema.order_eq hnumbered.subtree?_root hnumbered.subtree?_typeRefs] at horder
  rw [← List.length_append, horder, List.length_range]

/-! ## The same ids -/

namespace Schema

/-- The tops have the same ids, and so have the nodes of the value. -/
structure SameIds (s t : Schema) : Prop where
  root_eq : t.root = s.root
  typeRefs_eq : t.typeRefs = s.typeRefs
  subtree?_root_eq : t.subtree? t.root = s.subtree? s.root

/-- Values whose trees have one shape have the same ids, and all of them are the same if the
definitions have one shape too. -/
theorem sameIds_of_shape {w : Value} {t : Schema} (hs : derive? types v = some s)
    (ht : derive? types w = some t) (hroot : (s.tree s.root).shape = (t.tree t.root).shape) :
    s.SameIds t ∧ ((s.tree s.typeRefs).shape = (t.tree t.typeRefs).shape →
      t.subtree? t.typeRefs = s.subtree? s.typeRefs ∧ t.nodes.size = s.nodes.size) := by
  obtain ⟨r, q, hnumbered⟩ := exists_numbered hs
  obtain ⟨r', q', hnumbered'⟩ := exists_numbered ht
  obtain rfl := hnumbered.eq_of_shape_root hnumbered' hroot
  refine ⟨⟨hnumbered'.root_eq.trans hnumbered.root_eq.symm,
    hnumbered'.typeRefs_eq.trans hnumbered.typeRefs_eq.symm,
    hnumbered'.subtree?_root.trans hnumbered.subtree?_root.symm⟩, fun htypeRefs => ?_⟩
  obtain rfl := hnumbered.eq_of_shape_typeRefs hnumbered' htypeRefs
  exact ⟨hnumbered'.subtree?_typeRefs.trans hnumbered.subtree?_typeRefs.symm,
    (size_of_numbered ht hnumbered').trans (size_of_numbered hs hnumbered).symm⟩

end Schema

end TypeOutline
