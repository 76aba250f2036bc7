import TypeOutline.Proofs.Rendering.Indents
import TypeOutline.Proofs.Rendering.JsonLines

/-!
# Blocks are nested

No node of a derived schema but the tops looks like a top, and a node with
members is a list or a record that did not fail and shows no reference
(`bears_of_below_tops`, `shownRef_eq_empty`). So its own lines end with
`properties:` or `items:`, and the blocks of its members follow, all one
step further (`exists_blockAt_eq`). With what is known of the indents of
blocks this gives the shape of every rendering of a node
(`derive?_wellNested`).
-/

namespace TypeOutline

open Relation (ReflTransGen TransGen)

/-! ## Nodes with members -/

/-- A node with members is a list or a record that did not fail. -/
def Attributes.Bears (a : Attributes) (members : Nat) : Prop :=
  members ≠ 0 → a.defect = none ∧ (a.generic = .list ∨ a.generic = .struct)

theorem bears_zero (a : Attributes) : a.Bears 0 := fun h => absurd rfl h

theorem obeys_bears {a : Attributes} {shape : Shape Value} (ha : a.generic = .ofKind shape.kind) :
    (shape.content a).Obeys Attributes.Bears := by
  cases shape with
  | scalar kind => exact bears_zero _
  | list fixed elements zero =>
      have hlist : a.generic = .list := by
        rw [ha]
        cases fixed <;> rfl
      dsimp only [Shape.content]
      split
      · exact bears_zero _
      · rename_i hd
        have hbears : ∀ n, (a.modifyOptions (·.set "len" (toString elements.length))).Bears n :=
          fun _ _ => ⟨defect_eq_none_of_isSome hd, .inl hlist⟩
        split
        · exact hbears 1
        · exact ⟨hbears 1, fun _ => bears_zero _⟩
  | record fields =>
      dsimp only [Shape.content]
      split
      · exact bears_zero _
      · rename_i hd
        repeat' split
        · exact bears_zero _
        · exact bears_zero _
        · exact fun _ => ⟨defect_eq_none_of_isSome hd, .inr ha⟩
  | map key keyType entries =>
      rw [Shape.content]
      split
      · exact bears_zero _
      · rename_i hd
        repeat' split
        · exact bears_zero _
        · exact bears_zero _
        · exact fun _ => ⟨defect_eq_none_of_isSome hd, .inr ha⟩
  | slot target =>
      cases target with
      | none => exact bears_zero _
      | some v => trivial
  | pointer target zero =>
      dsimp only [Shape.content]
      split
      · exact bears_zero _
      · trivial
  | nil => exact bears_zero _

theorem kept_bears : Kept Attributes.Bears fun _ => True where
  refused _ _ _ := bears_zero _
  entered _ _ _ := obeys_bears (generic_head _ _ _)

section Nodes

variable {types : Types} {v : Value} {s : Schema} {out : Outline} {k : NodeId}

theorem bears_of_below_tops (hs : s.Linked) (ho : s.Renders out)
    (houtlines : Outlines types (.start v) out)
    (hk : TransGen s.Owns s.root k ∨ TransGen s.Owns s.typeRefs k) :
    (s.attrs k).Bears (s.children k).length := by
  have hbears := every_outlines kept_bears houtlines fun _ _ _ _ => trivial
  have hbare := every_outlines kept_failsBare houtlines fun _ _ _ _ => trivial
  rw [← Schema.label_tree, ← hs.length_children_tree hk]
  rcases below_tops_cases hk with hk | hk | ⟨d, hd, hk⟩
  · exact hbears.1 _ (tree_mem_of_below_root hs ho hk)
  · obtain ⟨f, hf, n, -, htree⟩ := exists_finished_of_definition hs ho hk
    rw [htree, Rose.label_definition, Rose.children_definition, Rose.length_cutAll]
    exact hbears.2 f hf _ (Rose.self_mem_subtrees _)
  · obtain ⟨f, hf, w, hw, hcut⟩ := exists_cutOf_of_below_definition hs ho hbare hd hk
    have hw' := hbears.2 f hf w hw
    generalize s.tree k = u at hcut
    cases hcut with
    | kept _ hlength =>
        rw [Rose.children, hlength]
        exact hw'
    | reference _ => exact bears_zero _

end Nodes

/-! ## Trees in order -/

namespace Rose

variable {α : Type} {le : α → α → Bool} {x : α}

mutual

theorem mem_preorder_sortBy : (t : Rose α) → (x ∈ (t.sortBy le).preorder ↔ x ∈ t.preorder)
  | node a ts => by
      rw [sortBy, preorder, preorder, List.mem_cons, List.mem_cons, mem_preorderAll,
        ← mem_preorderAll_sortByAll ts, mem_preorderAll]
      simp only [List.mem_mergeSort]

theorem mem_preorderAll_sortByAll : (ts : List (Rose α)) →
    (x ∈ preorderAll (sortByAll le ts) ↔ x ∈ preorderAll ts)
  | [] => Iff.rfl
  | t :: ts => by
      rw [sortByAll, preorderAll, preorderAll, List.mem_append, List.mem_append,
        mem_preorder_sortBy t, mem_preorderAll_sortByAll ts]

end

mutual

theorem height_sortBy_le : (t : Rose α) → (t.sortBy le).height ≤ t.height
  | node a ts => by
      rw [sortBy, height, height]
      refine Nat.succ_le_succ (Schema.Rose.heightAll_le fun t ht => ?_)
      exact Nat.le_trans (height_le_heightAll (List.mem_mergeSort.mp ht))
        (heightAll_sortByAll_le ts)

theorem heightAll_sortByAll_le : (ts : List (Rose α)) → heightAll (sortByAll le ts) ≤ heightAll ts
  | [] => Nat.le_refl _
  | t :: ts => by
      have ht := height_sortBy_le t
      have hts := heightAll_sortByAll_le ts
      rw [sortByAll, heightAll, heightAll]
      omega

end

end Rose

namespace Schema

variable {s : Schema} {k : NodeId} {r : Rose NodeId}

theorem Linked.exists_subtree?_of_below (hs : s.Linked)
    (hk : TransGen s.Owns s.root k ∨ TransGen s.Owns s.typeRefs k) :
    ∃ r, s.subtree? k = some r := by
  obtain ⟨r, q, hr, hq⟩ := hs.exists_trees
  rcases hk with hk | hk
  · exact exists_subtree?_of_reaches hr hk.to_reflTransGen
  · exact exists_subtree?_of_reaches hq hk.to_reflTransGen

theorem Linked.lt_size_of_below (hs : s.Linked)
    (hk : TransGen s.Owns s.root k ∨ TransGen s.Owns s.typeRefs k) : k < s.nodes.size := by
  rcases hk with hk | hk
  · obtain ⟨p, -, hpk⟩ := TransGen.tail'_iff.mp hk
    exact hs.lt_size_of_mem hpk
  · obtain ⟨p, -, hpk⟩ := TransGen.tail'_iff.mp hk
    exact hs.lt_size_of_mem hpk

/-- The tree of a node in the order of names: its attributes over the trees of its children. -/
theorem ordered_tree_eq_node (h : s.subtree? k = some r) : (s.tree k).ordered Attributes.name =
    .node (s.attrs k) ((s.sortedChildren k).map fun c => (s.tree c).ordered Attributes.name) := by
  rw [tree_eq_node h, Rose.ordered_node, Rose.orderedAll, List.map_map, sortedChildren,
    List.map_mergeSort]
  · rfl
  · intro a _ b _
    simp only [Rose.label_ordered, label_tree]

end Schema

/-! ## Blocks of derived schemas -/

namespace OpenApi

section Blocks

variable {types : Types} {v : Value} {s : Schema} {out : Outline} {k : NodeId}
  {o : RenderOptions} {url : Option String}

/-- No node at or below a node that is below a top looks like a top. -/
theorem topless_ordered_tree (hs : s.Linked) (ho : s.Renders out)
    (houtlines : Outlines types (.start v) out)
    (hk : TransGen s.Owns s.root k ∨ TransGen s.Owns s.typeRefs k) :
    Topless ((s.tree k).ordered Attributes.name) := by
  intro a ha
  obtain ⟨r, hr⟩ := hs.exists_subtree?_of_below hk
  obtain ⟨c, hc, rfl⟩ := (Schema.mem_preorder_tree hr).mp ((Rose.mem_preorder_sortBy _).mp ha)
  exact isRoot_of_below_tops hs ho houtlines
    (hk.imp (fun h => h.trans_left hc) fun h => h.trans_left hc)

/-- A node with members shows no reference in place of its type. -/
theorem shownRef_eq_empty {a : Attributes} (hconsistent : a.Consistent)
    (hexpands : Schema.expands o a = true) (hdefect : a.defect = none) :
    shownRef o a (a.view jsonDialect).typeRef = "" := by
  have hcyclical : a.isCyclical = false := by
    rw [Attributes.isCyclical, hdefect]
    rfl
  rw [shownRef, hcyclical, Bool.or_false]
  cases hmode : o.dereference with
  | true => rfl
  | false =>
      rw [Schema.expands, hmode, Bool.false_or, Bool.not_eq_true'] at hexpands
      rw [hconsistent.view_typeRef]
      exact of_not_not fun hne => Bool.eq_false_iff.mp hexpands (bne_iff_ne.mpr hne)

/-- The last line before the members of a node. -/
def membersLine (a : Attributes) : String :=
  if a.generic = .struct then "properties:" else "items:"

theorem exists_openNode_eq {a : Attributes} (hdefect : a.defect = none)
    (hgeneric : a.generic = .list ∨ a.generic = .struct)
    (href : shownRef o a (a.view jsonDialect).typeRef = "") (n : UInt64) :
    ∃ opening, openNode o url a n =
      (opening ++ [⟨n + nameStep (a.view jsonDialect).name, membersLine a⟩],
        n + nameStep (a.view jsonDialect).name + 1) := by
  rw [openNode_eq, bodyLines, if_pos href, typeLines, hdefect, membersLine]
  rcases hgeneric with h | h <;> rw [h]
  · exact ⟨nameLines (a.view jsonDialect).name n
      ++ [⟨n + nameStep (a.view jsonDialect).name, "type: array"⟩], by simp [defectLines]⟩
  · exact ⟨nameLines (a.view jsonDialect).name n
      ++ [⟨n + nameStep (a.view jsonDialect).name, "type: object"⟩], by simp [defectLines]⟩

/-- The block of a node at an indent. -/
def blockAt (s : Schema) (o : RenderOptions) (url : Option String) (k : NodeId) (n : UInt64) :
    List Line :=
  blockOf s { o with indent := n } url k

theorem blockAt_eq (s : Schema) (o : RenderOptions) (url : Option String) (k : NodeId)
    (n : UInt64) : blockAt s o url k n =
      treeBlock o url n ((s.tree k).ordered Attributes.name) := by
  have hmode : ({ o with indent := n } : RenderOptions).dereference = o.dereference := rfl
  rw [blockAt, blockOf, Renderer.block_congr hmode, block_eq_treeBlock,
    Schema.map_attrs_orderedSubtree]

theorem treeBlocks_eq_flatMap (n : UInt64) (ts : List (Rose Attributes)) :
    treeBlocks o url n ts = ts.flatMap (treeBlock o url n) := by
  induction ts with
  | nil => rfl
  | cons t ts ih => rw [treeBlocks, ih, List.flatMap_cons]

/-- What a renderer makes of a node at an indent. -/
theorem renderElement?_new (hk : k < s.nodes.size) (n : UInt64) :
    (Renderer.new url { o with indent := n }).renderElement? s k =
      if (blockAt s o url k n).any (·.tooWide) then none
      else some ((blockAt s o url k n).map (·.text), .new url { o with indent := n }) := by
  have hmode : (Renderer.new url { o with indent := n }).options.dereference = o.dereference := rfl
  have hblock : blockOf s (Renderer.new url { o with indent := n }).options url k =
      blockAt s o url k n := by
    rw [blockAt_eq, blockOf_eq_treeBlock, ← Schema.map_attrs_orderedSubtree,
      ← block_eq_treeBlock, ← block_eq_treeBlock, Renderer.block_congr hmode]
    rfl
  have hhas : s.has k = true := decide_eq_true hk
  rw [Renderer.renderElement?_eq, Schema.elementFaults, hhas, Schema.elementLines, lines]
  change (if (blockOf s _ url k).any _ then _ else some ((blockOf s _ url k).map _, _)) = _
  rw [hblock]

variable (hs : s.Linked) (ho : s.Renders out) (houtlines : Outlines types (.start v) out)
  (hk : TransGen s.Owns s.root k ∨ TransGen s.Owns s.typeRefs k)

include hs ho houtlines hk

theorem blockAt_eq_shift (n : UInt64) :
    blockAt s o url k n = (blockAt s o url k 0).map (Line.shift n) := by
  rw [blockAt_eq, blockAt_eq, ← treeBlock_shift n 0 _ (topless_ordered_tree hs ho houtlines hk),
    UInt64.add_zero]

theorem rests_blockAt : ∀ l ∈ blockAt s o url k 0, Rests 0 (blockAt s o url k 0) l.indent := by
  rw [blockAt_eq]
  exact rests_treeBlock 0 _ (topless_ordered_tree hs ho houtlines hk)

/-- A block that can be made is the one at no indent behind a margin. -/
theorem map_text_blockAt {n : UInt64} (h : (blockAt s o url k n).any (·.tooWide) = false) :
    (blockAt s o url k 0).any (·.tooWide) = false
      ∧ (blockAt s o url k n).map (·.text) =
        ((blockAt s o url k 0).map (·.text)).map (margin n ++ ·) := by
  have hrests := @rests_blockAt _ _ _ _ _ o url hs ho houtlines hk
  rw [blockAt_eq_shift hs ho houtlines hk, List.any_map, List.any_eq_false] at h
  have hlt : ∀ l ∈ blockAt s o url k 0, n.toNat + l.indent.toNat < 0x4000000000000000 :=
    fun l hl => indent_lt_of_not_tooWide hrests
      (fun l' hl' => Bool.eq_false_iff.mpr (h l' hl')) hl
  constructor
  · rw [List.any_eq_false]
    intro l hl
    refine Bool.eq_false_iff.mp (tooWide_eq_false_iff.mpr ?_)
    have hl' := hlt l hl
    omega
  · rw [blockAt_eq_shift hs ho houtlines hk, List.map_map, List.map_map]
    exact List.map_congr_left fun l hl => text_shift (hlt l hl)

/-- A block can be made where there is room for two steps for each node. -/
theorem any_tooWide_blockAt {n : UInt64}
    (hn : n.toNat + 2 * (s.nodes.size + 1) < 0x4000000000000000) :
    (blockAt s o url k n).any (·.tooWide) = false := by
  obtain ⟨r, hr⟩ := hs.exists_subtree?_of_below hk
  have hheight : ((s.tree k).ordered Attributes.name).height ≤ s.nodes.size + 1 := by
    refine Nat.le_trans (Rose.height_sortBy_le _) ?_
    rw [Schema.tree, Rose.height_map, Schema.subtree_eq hr]
    exact Schema.height_le_of_subtreeWithin? hr
  rw [blockAt_eq, List.any_eq_false]
  intro l hl
  have hle := treeBlock_le n _ (topless_ordered_tree hs ho houtlines hk) l hl
  refine Bool.eq_false_iff.mp (tooWide_eq_false_iff.mpr ?_)
  omega

/-- The block of a node with members: up to the line before the members, and their blocks. -/
theorem exists_blockAt_eq (hvisible : hidden (s.attrs k) = false)
    (hexpands : Schema.expands o (s.attrs k) = true) (hmembers : s.children k ≠ []) (n : UInt64) :
    ∃ opening j, (j = n ∨ j = n + 1) ∧ blockAt s o url k n =
      opening ++ ⟨j, membersLine (s.attrs k)⟩
        :: (s.sortedChildren k).flatMap fun c => blockAt s o url c (j + 1) := by
  obtain ⟨r, hr⟩ := hs.exists_subtree?_of_below hk
  have hconsistent := consistent_of_below_tops hs ho houtlines hk
  obtain ⟨hdefect, hgeneric⟩ := bears_of_below_tops hs ho houtlines hk
    (fun h => hmembers (List.eq_nil_of_length_eq_zero h))
  have href := shownRef_eq_empty hconsistent hexpands hdefect
  obtain ⟨opening, hopening⟩ := @exists_openNode_eq o url _ hdefect hgeneric href n
  refine ⟨opening, n + nameStep ((s.attrs k).view jsonDialect).name, ?_, ?_⟩
  · unfold nameStep
    split
    · exact .inl (UInt64.add_zero n)
    · exact .inr rfl
  · have hroot := isRoot_of_below_tops hs ho houtlines hk
    rw [blockAt_eq, Schema.ordered_tree_eq_node hr, treeBlock_node hroot,
      if_neg (by rw [hvisible]; exact Bool.false_ne_true), if_pos hexpands, hopening,
      treeBlocks_eq_flatMap, List.flatMap_map]
    simp only [blockAt_eq, List.append_assoc, List.singleton_append]

end Blocks

/-! ## The main result -/

/-- What a rendering that starts at an indent makes of a node. -/
def Renders (s : Schema) (url : Option String) (o : RenderOptions) (n : UInt64) (k : NodeId)
    (ls : List String) : Prop :=
  ∃ r, (Renderer.new url { o with indent := n }).renderElement? s k = some (ls, r)

/-- The block of the node is nested. -/
structure WellNested (s : Schema) (url : Option String) (o : RenderOptions) (k : NodeId) :
    Prop where
  /-- At any indent it is the one at no indent behind a margin. -/
  margin_eq : ∀ n ls, Renders s url o n k ls →
    ∃ own, Renders s url o 0 k own ∧ ls = own.map (margin n ++ ·)
  /-- There is one where there is room for two steps for each node of the schema. -/
  exists_lines : ∀ n : UInt64, n.toNat + 2 * (s.nodes.size + 1) < 0x4000000000000000 →
    ∃ ls, Renders s url o n k ls
  /-- Its first line stands at the indent. -/
  indent_head : ∀ n l, (blockAt s o url k n).head? = some l → l.indent = n
  /-- The members follow a line of the node's own, each with its block one step further. -/
  members : hidden (s.attrs k) = false → Schema.expands o (s.attrs k) = true → s.children k ≠ [] →
    ∀ n ls, Renders s url o n k ls → ∃ opening start blocks,
      ls = opening ++ (start ++ membersLine (s.attrs k)) :: blocks.flatten
        ∧ (start = margin n ∨ start = margin n ++ Renderer.indentUnit)
        ∧ List.Forall₂ (fun c block => ∃ own, Renders s url o 0 c own
            ∧ block = own.map (start ++ Renderer.indentUnit ++ ·)) (s.sortedChildren k) blocks

theorem renders_iff {s : Schema} {url : Option String} {o : RenderOptions} {n : UInt64}
    {k : NodeId} {ls : List String} (hk : k < s.nodes.size) : Renders s url o n k ls ↔
      (blockAt s o url k n).any (·.tooWide) = false ∧ ls = (blockAt s o url k n).map (·.text) := by
  rw [Renders]
  simp only [renderElement?_new hk]
  cases (blockAt s o url k n).any (·.tooWide) with
  | true => simp
  | false => simp [eq_comm]

/-- One step further the margin is wider by the unit. -/
theorem margin_add_one {n : UInt64} (h : n.toNat < 0x4000000000000000) :
    margin (n + 1) = margin n ++ Renderer.indentUnit := by
  have hadd : (n + 1).toNat = n.toNat + 1 := by
    rw [UInt64.toNat_add]
    have hone : (1 : UInt64).toNat = 1 := rfl
    omega
  rw [← String.toList_inj]
  simp only [margin, String.toList_append, toList_pushn, hadd, Nat.mul_add, List.replicate_add,
    String.toList_empty, List.nil_append]
  rfl

section Main

variable {types : Types} {v : Value} {s : Schema} {out : Outline} {k : NodeId}

/-- A block starts with a line at its indent. -/
theorem indent_head?_blockAt (hs : s.Linked) (ho : s.Renders out)
    (houtlines : Outlines types (.start v) out) {url : Option String} {o : RenderOptions}
    (hk : TransGen s.Owns s.root k ∨ TransGen s.Owns s.typeRefs k) {n : UInt64} {l : Line}
    (h : (blockAt s o url k n).head? = some l) : l.indent = n := by
  obtain ⟨r, hr⟩ := hs.exists_subtree?_of_below hk
  rw [blockAt_eq, Schema.ordered_tree_eq_node hr] at h
  exact indent_of_head? (isRoot_of_below_tops hs ho houtlines hk) h

theorem wellNested_of_below_tops (hs : s.Linked) (ho : s.Renders out)
    (houtlines : Outlines types (.start v) out) (url : Option String) (o : RenderOptions)
    (hk : TransGen s.Owns s.root k ∨ TransGen s.Owns s.typeRefs k) : WellNested s url o k where
  margin_eq n ls h := by
    rw [renders_iff (hs.lt_size_of_below hk)] at h
    obtain ⟨hwide, rfl⟩ := h
    obtain ⟨hzero, heq⟩ := map_text_blockAt hs ho houtlines hk hwide
    exact ⟨_, (renders_iff (hs.lt_size_of_below hk)).mpr ⟨hzero, rfl⟩, heq⟩
  exists_lines n hn := ⟨_, (renders_iff (hs.lt_size_of_below hk)).mpr
    ⟨any_tooWide_blockAt hs ho houtlines hk hn, rfl⟩⟩
  indent_head n l h := indent_head?_blockAt hs ho houtlines hk h
  members hvisible hexpands hmembers n ls h := by
    rw [renders_iff (hs.lt_size_of_below hk)] at h
    obtain ⟨hwide, rfl⟩ := h
    obtain ⟨opening, j, hj, hblock⟩ :=
      @exists_blockAt_eq _ _ _ _ _ o url hs ho houtlines hk hvisible hexpands hmembers n
    have hnot : ∀ l ∈ blockAt s o url k n, l.indent.toNat < 0x4000000000000000 := fun l hl =>
      tooWide_eq_false_iff.mp (Bool.eq_false_iff.mpr (List.any_eq_false.mp hwide l hl))
    have hline : ⟨j, membersLine (s.attrs k)⟩ ∈ blockAt s o url k n := by
      rw [hblock]
      exact List.mem_append_right _ List.mem_cons_self
    have hlt : j.toNat < 0x4000000000000000 := hnot _ hline
    refine ⟨opening.map (·.text), margin j,
      (s.sortedChildren k).map fun c => (blockAt s o url c (j + 1)).map (·.text), ?_, ?_, ?_⟩
    · rw [hblock, List.map_append, List.map_cons, List.map_flatMap, List.flatMap_def]
      rfl
    · obtain ⟨first, rest, hfirst⟩ := List.exists_cons_of_ne_nil (List.ne_nil_of_mem hline)
      have hindent : first.indent = n :=
        indent_head?_blockAt hs ho houtlines hk (congrArg List.head? hfirst)
      have hn : n.toNat < 0x4000000000000000 := by
        rw [← hindent]
        exact hnot first (hfirst ▸ List.mem_cons_self)
      rcases hj with rfl | rfl
      · exact .inl rfl
      · exact .inr (margin_add_one hn)
    · rw [List.forall₂_map_right_iff, List.forall₂_same]
      intro c hc
      have hc' : TransGen s.Owns s.root c ∨ TransGen s.Owns s.typeRefs c := by
        have howns : s.Owns k c := List.mem_mergeSort.mp hc
        exact hk.imp (·.tail howns) (·.tail howns)
      have hwide : (blockAt s o url c (j + 1)).any (·.tooWide) = false := by
        rw [List.any_eq_false]
        intro l hl
        refine Bool.eq_false_iff.mp (tooWide_eq_false_iff.mpr (hnot l ?_))
        rw [hblock]
        exact List.mem_append_right _ (List.mem_cons_of_mem _ (List.mem_flatMap.mpr ⟨c, hc, hl⟩))
      obtain ⟨hzero, heq⟩ := map_text_blockAt hs ho houtlines hc' hwide
      refine ⟨_, (renders_iff (hs.lt_size_of_below hc')).mpr ⟨hzero, rfl⟩, ?_⟩
      rw [heq, margin_add_one hlt]

/-- Below the tops of a derived schema the block of every node is nested, with and without a URL
path, in both modes and at every indent. A renderer, whatever it renders, is the same afterwards, so
a second rendering is the same too. -/
theorem derive?_wellNested (hs : derive? types v = some s) (url : Option String)
    (o : RenderOptions) :
    (∀ k, TransGen s.Owns s.root k ∨ TransGen s.Owns s.typeRefs k → WellNested s url o k)
      ∧ (∀ (r r' : Renderer) k ls, r.renderElement? s k = some (ls, r') →
        r' = r ∧ r'.renderElement? s k = some (ls, r))
      ∧ ∀ (r r' : Renderer) ls, r.render? s = some (ls, r') →
        r' = r ∧ r'.render? s = some (ls, r) := by
  obtain ⟨out, houtlines, ho⟩ := exists_outlines_of_derive? hs
  refine ⟨fun k hk => wellNested_of_below_tops (linked_of_derive? hs) ho houtlines url o hk,
    fun r r' k ls h => ?_, fun r r' ls h => ?_⟩
  · have hr : r' = r := by
      rw [Renderer.renderElement?_eq] at h
      split at h
      · cases h
      · exact (congrArg Prod.snd (Option.some.inj h)).symm
    rw [hr] at h ⊢
    exact ⟨rfl, h⟩
  · have hr : r' = r := by
      rw [Renderer.render?_eq] at h
      split at h
      · cases h
      · exact (congrArg Prod.snd (Option.some.inj h)).symm
    rw [hr] at h ⊢
    exact ⟨rfl, h⟩

/-- The definition of a chain's type, at an indent of one step. -/
theorem derive?_wellNested_chain : ∃ s d own, derive? chainTypes chain = some s
    ∧ s.children s.typeRefs = [d] ∧ Renders s none {} 0 d own
    ∧ Renders s none {} 1 d (own.map ("  " ++ ·)) := by
  have hderive : (derive? chainTypes chain).map (fun s => (s.children s.typeRefs, s.nodes.size)) =
      some ([4], 6) := by
    decide +kernel
  obtain ⟨s, hs, hnodes⟩ := Option.map_eq_some_iff.mp hderive
  obtain ⟨hrefs, hsize⟩ := Prod.mk.inj hnodes
  have hfour : s.Owns s.typeRefs 4 := by simp [Schema.Owns, hrefs]
  have hnested := (derive?_wellNested hs none {}).1 4 (.inr (.single hfour))
  obtain ⟨ls, hls⟩ := hnested.exists_lines 1 (by rw [hsize]; decide)
  obtain ⟨own, hown, heq⟩ := hnested.margin_eq 1 ls hls
  refine ⟨s, 4, own, hs, hrefs, hown, ?_⟩
  rw [heq] at hls
  exact hls

end Main

end OpenApi

end TypeOutline
