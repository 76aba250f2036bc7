import TypeOutline.Proofs.Rendering.Renumbered

/-!
# Copies

A copy is a tree of its own: it lies behind all old nodes, one fresh id
after the other in the order of the original (`Shows.preorder_eq`), and
no old node is touched for it. So everything that is read off the old
nodes stays as it is (`Linked.moves_copy`), and since the copy and the
original share no node, an edit of one of them spares the other.

A copy can be made node by node: first the node, then its children one
after the other, each as it stands in the arena by then. What has been
copied so far is never read again, so this comes to the same
(`Linked.copy?_eq_some_iff`).
-/

namespace TypeOutline

/-- Increasing numbers that leave no room for others follow one after the other. -/
theorem eq_range'_of_pairwise {xs : List Nat} {lo : Nat} (h : xs.Pairwise (· < ·))
    (hbounds : ∀ x ∈ xs, lo ≤ x ∧ x < lo + xs.length) : xs = List.range' lo xs.length := by
  have hsub : xs ⊆ List.range' lo xs.length := fun x hx => List.mem_range'_1.mpr (hbounds x hx)
  have hnodup : xs.Nodup := h.imp Nat.ne_of_lt
  have hperm := (hnodup.subperm hsub).perm_of_length_le (by rw [List.length_range'])
  exact hperm.eq_of_pairwise (fun _ _ _ _ hlt hgt => absurd hlt (Nat.lt_asymm hgt)) h
    (List.pairwise_lt_range' 1 Nat.one_pos)

namespace Schema

open Relation (ReflTransGen TransGen)

variable {s t : Schema} {id k : NodeId} {r : Rose NodeId}

/-! ## The ids of a copy -/

mutual

/-- The ids of a tree that is shown increase, from its top on. -/
theorem Shows.pairwise : {u : Rose Attributes} → ∀ {lo hi : Nat} {r : Rose NodeId},
    Shows s lo hi r.label u → Traces s r →
      r.preorder.Pairwise (· < ·) ∧ ∀ x ∈ r.preorder, r.label ≤ x ∧ x < hi
  | .node _ us, lo, hi, .node id rs, h, htraces => by
      have hbelow := h.2.2.2
      rw [Rose.label, htraces.1] at hbelow
      obtain ⟨hpairwise, hbounds⟩ := ShowsAll.pairwise hbelow htraces.2
      refine ⟨List.pairwise_cons.mpr ⟨fun x hx => (hbounds x hx).1, hpairwise⟩, fun x hx => ?_⟩
      rcases List.mem_cons.mp hx with rfl | hx
      · exact ⟨Nat.le_refl _, h.2.1⟩
      · obtain ⟨hlo, hhi⟩ := hbounds x hx
        exact ⟨Nat.le_of_succ_le hlo, hhi⟩

theorem ShowsAll.pairwise : {us : List (Rose Attributes)} → ∀ {lo hi : Nat}
    {rs : List (Rose NodeId)}, ShowsAll s lo hi (rs.map Rose.label) us → TracesAll s rs →
      (Rose.preorderAll rs).Pairwise (· < ·) ∧ ∀ x ∈ Rose.preorderAll rs, lo ≤ x ∧ x < hi
  | _, _, _, [], _, _ => ⟨.nil, fun x hx => absurd hx List.not_mem_nil⟩
  | [], _, _, _ :: _, h, _ => h.elim
  | _ :: _, lo, hi, r :: rs, ⟨mid, hu, hus⟩, htraces => by
      obtain ⟨hfirst, hfirst'⟩ := hu.pairwise htraces.1
      obtain ⟨hrest, hrest'⟩ := ShowsAll.pairwise hus htraces.2
      have hmid : lo ≤ mid := Nat.le_trans hu.le (Nat.le_of_lt hu.lt)
      refine ⟨List.pairwise_append.mpr ⟨hfirst, hrest, fun x hx y hy => ?_⟩, fun x hx => ?_⟩
      · exact Nat.lt_of_lt_of_le (hfirst' x hx).2 (hrest' y hy).1
      · rcases List.mem_append.mp hx with hx | hx
        · exact ⟨Nat.le_trans hu.le (hfirst' x hx).1, Nat.lt_of_lt_of_le (hfirst' x hx).2 hus.le⟩
        · exact ⟨Nat.le_trans hmid (hrest' x hx).1, (hrest' x hx).2⟩

end

mutual

theorem size_graft : (u : Rose Attributes) → ∀ (s : Schema),
    (s.graft u).nodes.size = s.nodes.size + u.preorder.length
  | .node a us, s => by
      rw [graft, size_graftAll us, size_alloc, Rose.preorder, List.length_cons]
      omega

theorem size_graftAll : (us : List (Rose Attributes)) → ∀ (s : Schema) (p : NodeId),
    (s.graftAll p us).nodes.size = s.nodes.size + (Rose.preorderAll us).length
  | [], _, _ => rfl
  | u :: us, s, p => by
      rw [graftAll, size_graftAll us, size_addChild, size_graft u, Rose.preorderAll,
        List.length_append]
      omega

end

/-- The ids of a copy are the next ones, one after the other. -/
theorem preorder_graft (hs : s.Linked) (u : Rose Attributes) : ∃ r,
    (s.graft u).subtree? s.nextId = some r ∧ r.map (s.graft u).attrs = u
      ∧ r.preorder = List.range' s.nextId r.preorder.length := by
  have hshows := (grafted_graft u hs).shows
  obtain ⟨r, hr, hmap⟩ := hshows.subtree? (Nat.le_refl _)
  obtain ⟨hlabel, htraces⟩ := traces_of_subtree? hr
  rw [← hlabel] at hshows
  obtain ⟨hpairwise, hbounds⟩ := hshows.pairwise htraces
  have hlength : (s.graft u).nodes.size = s.nextId + r.preorder.length := by
    rw [size_graft, nextId, ← hmap, Rose.preorder_map, List.length_map]
  rw [hlabel, hlength] at hbounds
  exact ⟨r, hr, hmap, eq_range'_of_pairwise hpairwise hbounds⟩

/-! ## Copying node by node -/

/-- Copy a node, and then its children one after the other, each to the end of the list of the new
node; none below some depth. -/
def copyWithin? : (depth : Nat) → Schema → NodeId → Option Schema
  | 0, _, _ => none
  | depth + 1, s, id =>
    let fresh := s.alloc (s.attrs id)
    (fresh.children id).foldlM
      (fun t c => (copyWithin? depth t c).map (·.addChild s.nextId t.nextId)) fresh

/-- Children that are copied one after the other are trees that are added. -/
theorem foldlM_copyWithin? {depth : Nat} {p : NodeId} (hp : s.nodes.size ≤ p)
    (hcopy : ∀ {t : Schema} {c : NodeId}, t.Linked → Grows s t (fun _ => False) →
      c < s.nodes.size → t.copyWithin? depth c =
        (s.subtreeWithin? depth c).map fun r => t.graft (r.map s.attrs)) :
    ∀ {cs : List NodeId} {t : Schema}, t.Linked → Grows s t (fun _ => False) → p < t.nodes.size →
      (∀ c ∈ cs, c < s.nodes.size) →
      cs.foldlM (fun t c => (t.copyWithin? depth c).map (·.addChild p t.nextId)) t =
        (cs.mapM (s.subtreeWithin? depth)).map fun rs => t.graftAll p (Rose.mapAll s.attrs rs)
  | [], _, _, _, _, _ => rfl
  | c :: cs, t, ht, hgrows, hpt, hcs => by
      obtain ⟨hc, hcs⟩ := List.forall_mem_cons.mp hcs
      rw [List.foldlM_cons, hcopy ht hgrows hc, List.mapM_cons]
      cases s.subtreeWithin? depth c with
      | none => rfl
      | some r =>
          -- the copy of the child is linked, and the old nodes are as they were
          obtain ⟨hlinked, hgrown, -⟩ := graftedAll_graftAll [r.map s.attrs] ht hpt
          have hgrows' := hgrows.trans hgrown fun k hk heq =>
            absurd (heq ▸ hk) (Nat.not_lt_of_le hp)
          have hpt' := Nat.lt_of_lt_of_le hpt hgrown.size_le
          refine (foldlM_copyWithin? hp hcopy hlinked hgrows' hpt' hcs).trans ?_
          show _ = ((cs.mapM (s.subtreeWithin? depth)).bind fun rs => some (r :: rs)).map _
          cases cs.mapM (s.subtreeWithin? depth) <;> rfl

/-- In an arena that has only grown, copying an old node is adding its tree. -/
theorem copyWithin?_eq (hs : s.Linked) (depth : Nat) : ∀ {t : Schema} {id : NodeId}, t.Linked →
    Grows s t (fun _ => False) → id < s.nodes.size → t.copyWithin? depth id =
      (s.subtreeWithin? depth id).map fun r => t.graft (r.map s.attrs) := by
  induction depth with
  | zero => intro t id _ _ _; rfl
  | succ depth ih =>
      intro t id ht hgrows hid
      have hold := hgrows.node?_eq id hid not_false
      have hchildren : (t.alloc (t.attrs id)).children id = s.children id :=
        (children_congr (node?_alloc_of_ne _ (Nat.ne_of_lt (Nat.lt_of_lt_of_le hid
          hgrows.size_le)))).trans (children_congr hold)
      rw [copyWithin?, attrs_congr hold]
      rw [attrs_congr hold] at hchildren
      have hgrown := hgrows.trans (grows_alloc t (s.attrs id)) fun _ _ h => h
      have hnew : t.nextId < (t.alloc (s.attrs id)).nodes.size := by
        rw [size_alloc]
        exact Nat.lt_succ_self _
      rw [hchildren, foldlM_copyWithin? (s := s) (p := t.nextId) hgrows.size_le ih (ht.alloc _)
        hgrown hnew fun c hc => hs.lt_size_of_mem hc, subtreeWithin?]
      cases (s.children id).mapM (s.subtreeWithin? depth) <;> rfl

/-- Copying node by node comes to an end exactly if there is a copy, and then it gives the copy. -/
theorem Linked.copy?_eq_some_iff (hs : s.Linked) (hid : id < s.nodes.size) :
    s.copy? id = some t ↔ ∃ depth, s.copyWithin? depth id = some t := by
  have hwithin := fun depth => copyWithin?_eq hs depth hs (.refl s _) hid
  constructor
  · intro h
    refine ⟨s.nodes.size + 1, ?_⟩
    rw [hwithin]
    rw [copy?] at h
    cases hr : s.subtree? id with
    | none =>
        rw [hr] at h
        cases h
    | some r =>
        rw [hr] at h
        obtain rfl := Option.some.inj h
        rw [show s.subtreeWithin? (s.nodes.size + 1) id = some r from hr, Option.map_some,
          Schema.copy, tree_eq_of_subtree? hr]
  · rintro ⟨depth, h⟩
    rw [hwithin] at h
    obtain ⟨r, hr, rfl⟩ := Option.map_eq_some_iff.mp h
    obtain ⟨rfl, htraces⟩ := traces_of_subtreeWithin? hr
    have hsome := (hs.isSome_subtree?_iff hid).mpr (not_transGen_of_traces htraces)
    obtain ⟨q, hq⟩ := Option.isSome_iff_exists.mp hsome
    obtain ⟨hlabel, hq'⟩ := traces_of_subtree? hq
    obtain rfl := hq'.unique htraces hlabel
    rw [copy?, hsome, Schema.copy, tree_eq_of_subtree? hq]
    rfl

/-! ## The old nodes -/

theorem Linked.node?_copy (hs : s.Linked) (id : NodeId) (hk : k < s.nodes.size) :
    (s.copy id).node? k = s.node? k :=
  (grafted_graft (s.tree id) hs).grows.node?_eq k hk not_false

/-- The old nodes stand after a copy where they stood before. -/
theorem Linked.moves_copy (hs : s.Linked) (id : NodeId) :
    Moves s (s.copy id) (· < s.nodes.size) fun k => k where
  node?_eq {k} hk := by
    have hsame : Node.relink (fun k => k) = fun n => n := by
      funext n
      simp [Node.relink]
    rw [hs.node?_copy id hk, hsame, Option.map_id_fun']
    rfl
  child _ hc := hs.lt_size_of_mem hc
  parent _ hp := lt_size_of_mem_children (hs.mem_children_iff.mpr hp)
  height_le _ hr := Nat.le_trans (height_le_of_subtreeWithin? hr)
    (Nat.succ_le_succ (grafted_graft (s.tree id) hs).grows.size_le)
  length_le _ hns := Nat.le_trans (lineage?_eq_some_iff.mp hns).2
    (Nat.succ_le_succ (grafted_graft (s.tree id) hs).grows.size_le)

/-! ## The main result -/

/-- In `t` the tree `r` at `id` of `s` has a copy `r'`, and nothing else is new. -/
structure Copied (s t : Schema) (id : NodeId) (r r' : Rose NodeId) : Prop where
  subtree?_eq : s.subtree? id = some r
  subtree?_copy : t.subtree? s.nextId = some r'
  /-- The copy has no parent. -/
  parent?_eq : t.parent? s.nextId = none
  /-- It says the same, node by node, with the children in the same order. -/
  map_eq : r'.map t.attrs = r.map s.attrs
  /-- Its ids are the next ones, one after the other. -/
  preorder_eq : r'.preorder = List.range' s.arenaSize r.preorder.length
  arenaSize_eq : t.arenaSize = s.arenaSize + r.preorder.length
  /-- No old node has changed. -/
  node?_eq : ∀ k < s.arenaSize, t.node? k = s.node? k
  root_eq : t.root = s.root
  typeRefs_eq : t.typeRefs = s.typeRefs
  size_eq : t.size = s.size
  isEmpty_eq : t.isEmpty = s.isEmpty
  dump_eq : t.dump = s.dump
  lines_eq : ∀ d o url, t.lines d o url = s.lines d o url
    ∧ t.linesFault d o url = s.linesFault d o url
  /-- What can be shown of an old node is shown as before. -/
  elementLines_eq : ∀ k < s.arenaSize, (s.subtree? k).isSome → ∀ d o url,
    s.elementFaults d o url k = false →
      t.elementLines d o url k = s.elementLines d o url k ∧ t.elementFaults d o url k = false
  /-- The copy and the original have no node in common, -/
  disjoint : ∀ k ∈ r.preorder, k ∉ r'.preorder
  /-- and each stays as it is through all edits that touch none of its nodes. -/
  original_untouched : ∀ u, ReflTransGen (Spares r.preorder) t u → Untouched t u id r
  copy_untouched : ∀ u, ReflTransGen (Spares r'.preorder) t u → Untouched t u s.nextId r'

theorem Linked.copied (hs : s.Linked) (hid : id < s.nodes.size) (hr : s.subtree? id = some r) :
    ∃ r', Copied s (s.copy id) id r r' := by
  have hgrafted := grafted_graft (s.tree id) hs
  have hmoves := hs.moves_copy id
  have hsize := hgrafted.grows.size_le
  have htree := tree_eq_of_subtree? hr
  obtain ⟨r', hr', hmap, hpreorder⟩ := preorder_graft hs (s.tree id)
  have hlength : r'.preorder.length = r.preorder.length := by
    rw [← List.length_map, ← Rose.preorder_map, hmap, htree, Rose.preorder_map, List.length_map]
  have hold : ∀ k ∈ r.preorder, k < s.nodes.size := by
    obtain ⟨rfl, htraces⟩ := traces_of_subtree? hr
    exact hs.lt_size_of_traces htraces hid
  have hsame : (s.copy id).subtree? id = some r := by
    have hheight := hmoves.height_le hid hr
    obtain ⟨rfl, htraces⟩ := traces_of_subtree? hr
    exact subtree?_of_traces (htraces.congr fun k hk =>
      children_congr (hs.node?_copy _ (hold k hk))) hheight
  obtain ⟨hsizes, hempty, hdump, hlines⟩ := hmoves.schema_eq hs hs.root_lt hs.typeRefs_lt
    hgrafted.grows.root_eq hgrafted.grows.typeRefs_eq
  rw [hlength] at hpreorder
  refine ⟨r',
    { subtree?_eq := hr, subtree?_copy := hr', parent?_eq := hgrafted.parent?_eq,
      map_eq := hmap.trans htree, preorder_eq := hpreorder, arenaSize_eq := ?_,
      node?_eq := fun k hk => hs.node?_copy id hk, root_eq := hgrafted.grows.root_eq,
      typeRefs_eq := hgrafted.grows.typeRefs_eq, size_eq := hsizes, isEmpty_eq := hempty,
      dump_eq := hdump, lines_eq := hlines, elementLines_eq := fun k hk hends d o url hgood => ?_,
      disjoint := fun k hk hk' => ?_, original_untouched := fun u hu => ?_,
      copy_untouched := fun u hu => ?_ }⟩
  · rw [arenaSize, Schema.copy, size_graft, htree, Rose.preorder_map, List.length_map, arenaSize]
  · obtain ⟨q, hq⟩ := Option.isSome_iff_exists.mp hends
    obtain ⟨hline, hfault⟩ := hmoves.elementLines_eq hk hq (.inr hgood)
    exact ⟨hline, hfault.trans hgood⟩
  · rw [hpreorder, List.mem_range'_1] at hk'
    exact absurd (hold k hk) (Nat.not_lt_of_le hk'.1)
  · exact untouched_of_spares hgrafted.linked (Nat.lt_of_lt_of_le hid hsize) hsame hu
  · exact untouched_of_spares hgrafted.linked hgrafted.shows.lt hr' hu

/-- In a schema that edits lead to, copying a node that does not stand below itself comes to an
end, also node by node; the copy is a tree of its own, like the original, and nothing else has
changed. -/
theorem copy?_of_reached (h : s.Reached) (hid : id < s.arenaSize)
    (hacyclic : ¬ TransGen s.Owns id id) : s.copy? id = some (s.copy id)
    ∧ (∃ depth, s.copyWithin? depth id = some (s.copy id))
    ∧ (Operation.copy id).faults s = false ∧ (s.copy id).Reached
    ∧ ∃ r r', Copied s (s.copy id) id r r' := by
  have hs := h.linked
  have hallowed : (Operation.copy id).Allowed s := ⟨hid, hacyclic⟩
  obtain ⟨r, hr⟩ := hs.exists_subtree? hid hacyclic
  have hcopy : s.copy? id = some (s.copy id) := by
    rw [copy?, hr]
    rfl
  have hrun := (Operation.run?_eq_perform? hs hallowed).trans hcopy
  exact ⟨hcopy, (hs.copy?_eq_some_iff hid).mp hcopy, Operation.faults_eq_false hs hallowed,
    h.edit (e := .operation (.copy id)) hallowed hrun, r, hs.copied hid hr⟩

/-- The copy of a node with one child; taking the child from the original leaves it to the copy. -/
theorem copy?_of_reached_pair : ∃ s,
    Operation.runAll? .empty [.newChild 0 "a", .newChild 2 "b"] = some s
    ∧ s.Reached ∧ 2 < s.arenaSize ∧ ¬ TransGen s.Owns 2 2 ∧ s.copy? 2 = some (s.copy 2)
    ∧ ∃ r r', Copied s (s.copy 2) 2 r r' ∧ r.preorder = [2, 3] ∧ r'.preorder = [4, 5]
      ∧ Untouched (s.copy 2) ((s.copy 2).removeAllChildren 2) 4 r' := by
  have hallowed : Operation.AllowedAll .empty [.newChild 0 "a", .newChild 2 "b"] :=
    .cons (by show _ < _; decide) rfl (.cons (by show _ < _; decide) rfl trivial)
  obtain ⟨s, hrun, -⟩ := Operation.exists_runAll?_of_linked sound_empty.toLinked hallowed
  have hs : s.Reached := Reached.runAll? .refl hallowed hrun
  have hends : (Operation.runAll? .empty [.newChild 0 "a", .newChild 2 "b"]).map
      (fun s => (s.arenaSize, s.preorder 2, (s.subtree? 2).isSome)) = some (4, [2, 3], true) := by
    rfl
  rw [hrun, Option.map_some, Option.some.injEq, Prod.mk.injEq, Prod.mk.injEq] at hends
  obtain ⟨hsize, horder, hsome⟩ := hends
  obtain ⟨q, hq⟩ := Option.isSome_iff_exists.mp hsome
  have hacyclic := not_transGen_of_subtree? hq
  have hlt : 2 < s.arenaSize := by rw [hsize]; decide
  obtain ⟨hcopy, -, -, hreached, r, r', hcopied⟩ := copy?_of_reached hs hlt hacyclic
  rw [preorder, subtree_eq hcopied.subtree?_eq] at horder
  have hnew := hcopied.preorder_eq
  rw [hsize, horder] at hnew
  have hemptied : (Operation.removeAllChildren 2).Allowed (s.copy 2) :=
    Nat.lt_of_lt_of_le hlt (Nat.le.intro hcopied.arenaSize_eq.symm)
  have huntouched := hcopied.copy_untouched _ (.single ⟨.operation (.removeAllChildren 2), hemptied,
    Operation.run?_eq_perform? hreached.linked hemptied, fun k hk => ?_⟩)
  · rw [show s.nextId = 4 from hsize] at huntouched
    exact ⟨s, hrun, hs, hlt, hacyclic, hcopy, r, r', hcopied, horder, hnew, huntouched⟩
  · rw [hnew] at hk
    rintro rfl
    exact absurd hk (by decide)

end Schema

end TypeOutline
