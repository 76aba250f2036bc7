import TypeOutline.Proofs.Arena.Subtrees
import TypeOutline.Proofs.Derivation.References
import TypeOutline.Proofs.Derivation.Termination

/-!
# What holds of every node

A property of a node and the number of its children holds of all nodes of
an outline, and of all trees that are finished on the way, if every level
keeps it (`every_outline`). A node that is met again on the same position,
by the content of an optional or a slot, needs no attention then: only the
last level there gives it children.

Every node of a schema comes from one of an outline: it is a node of the
value's tree, or a definition, or stands below one, where references have
lost their members and their defect (`tree_mem_of_below_root`,
`exists_finished_of_definition`, `exists_cutOf_of_below_definition`).
-/

namespace TypeOutline

open Relation

/-- Every level that the value unfolds into has the property. -/
def Value.EveryLevel (types : Types) (Q : Layer → Prop) (v : Value) : Prop :=
  ∀ w, ReflTransGen (Value.Unfolds types) v w → ∀ l, w.layer? types = some l → Q l

/-- The property holds of every node and the number of its children. -/
def Rose.Every {α : Type} (P : α → Nat → Prop) (t : Rose α) : Prop :=
  ∀ u ∈ t.subtrees, P u.label u.children.length

def Outline.Every (P : Attributes → Nat → Prop) (o : Outline) : Prop :=
  o.tree.Every P ∧ ∀ f ∈ o.finished, f.tree.Every P

/-- The property holds of the node of the content with as many members as the content has. -/
def Content.Obeys (P : Attributes → Nat → Prop) : Content → Prop
  | .leaf a => P a 0
  | .same _ _ => True
  | .each a members => P a members.length
  | .probed a _ => P a 1 ∧ ∀ kinds, P (Schema.mixedKinds kinds a) 0

/-- Every level with the property `Q` gives its node the property `P`. -/
structure Kept (P : Attributes → Nat → Prop) (Q : Layer → Prop) : Prop where
  refused : ∀ {a : Attributes} {l : Layer} {top : Bool} {above : Finset String}, Q l →
    a.defect ≠ some .cyclicalReference → (∀ name, l.ruling top above ≠ .enters name) →
      P (a.head l.shape.kind (l.ruling top above)) 0
  entered : ∀ {a : Attributes} {l : Layer} {name : Option String}, Q l →
    a.defect ≠ some .cyclicalReference → l.isUnsupported = false →
      (l.shape.content (a.head l.shape.kind (.enters name))).Obeys P

section Every

variable {types : Types} {P : Attributes → Nat → Prop} {Q : Layer → Prop}

theorem Value.EveryLevel.member {v w : Value} {l : Layer} (h : v.EveryLevel types Q)
    (hl : v.layer? types = some l) (hw : w ∈ l.shape.members) : w.EveryLevel types Q :=
  fun u hu => h u (.head ⟨l, hl, hw⟩ hu)

theorem Rose.every_node {a : Attributes} {ts : List (Rose Attributes)} :
    (Rose.node a ts).Every P ↔ P a ts.length ∧ ∀ t ∈ ts, t.Every P :=
  forall_mem_subtrees_node (R := fun u => P u.label u.children.length)

theorem Outline.every_leaf {a : Attributes} (h : P a 0) : (leaf a).Every P :=
  ⟨Rose.every_node.mpr ⟨h, fun _ ht => absurd ht List.not_mem_nil⟩,
    fun _ hf => absurd hf List.not_mem_nil⟩

theorem Outline.every_finish {o : Outline} (h : o.Every P) (p : Site) (l : Layer) :
    (o.finish p l).Every P := by
  refine ⟨h.1, fun f hf => ?_⟩
  rcases List.mem_append.mp hf with hf | hf
  · exact h.2 f hf
  · rw [List.mem_singleton.mp hf]
    exact h.1

/-- A node has the property over outlines that have it. -/
theorem Outline.every_node {o : Outline} {a : Attributes} {ts : List (Rose Attributes)}
    {os : List Outline} (htree : o.tree = .node a ts)
    (hfinished : o.finished = os.flatMap (·.finished)) (ha : P a ts.length)
    (hts : ∀ t ∈ ts, ∃ o' ∈ os, o'.tree = t) (hos : ∀ o' ∈ os, o'.Every P) : o.Every P := by
  refine ⟨?_, fun f hf => ?_⟩
  · rw [htree, Rose.every_node]
    refine ⟨ha, fun t ht => ?_⟩
    obtain ⟨o', ho', rfl⟩ := hts t ht
    exact (hos o' ho').1
  · rw [hfinished] at hf
    obtain ⟨o', ho', hf⟩ := List.mem_flatMap.mp hf
    exact (hos o' ho').2 f hf

theorem Content.Obeys.every {derive : Site → Option Outline} {a : Attributes}
    {shape : Shape Value} {top : Bool} {above : Finset String} {o : Outline}
    (h : (shape.content a).Obeys P)
    (ho : (shape.content a).outline derive top above = some o)
    (hsites : ∀ q ∈ (shape.content a).sites top above, ∀ o', derive q = some o' → o'.Every P) :
    o.Every P := by
  cases hc : shape.content a with
  | leaf b =>
      rw [hc] at h ho
      obtain rfl := Option.some.inj ho
      exact Outline.every_leaf h
  | same b v =>
      rw [hc] at ho hsites
      exact hsites _ List.mem_cons_self o ho
  | each b members =>
      rw [hc] at h ho hsites
      obtain ⟨os, hos, ho⟩ := Option.bind_eq_some_iff.mp ho
      obtain rfl := Option.some.inj ho
      refine Outline.every_node rfl rfl ?_ (fun t ht => List.mem_map.mp ht) fun o' ho' => ?_
      · rw [List.length_map, length_eq_of_mapM hos]
        exact h
      · obtain ⟨m, hm, hmo⟩ := exists_of_mem_mapM hos o' ho'
        exact hsites _ (List.mem_map_of_mem hm) o' hmo
  | probed b elements =>
      have hfits := content_fits a shape
      rw [hc] at h ho hsites hfits
      obtain ⟨-, -, -, -, -, hne⟩ := hfits
      obtain ⟨⟨os, kinds⟩, hos, ho⟩ := Option.bind_eq_some_iff.mp ho
      obtain rfl := Option.some.inj ho
      have hmembers : ∀ o' ∈ os, o'.Every P := by
        intro o' ho'
        obtain ⟨v, hv, hvo⟩ := exists_of_mem_gather hos o' ho'
        exact hsites _ (List.mem_map_of_mem hv) o' hvo
      by_cases hkinds : kinds.size > 1
      · exact Outline.every_node (if_pos hkinds) rfl (h.2 kinds)
          (fun t ht => absurd ht List.not_mem_nil) hmembers
      · obtain ⟨v, vs, rfl⟩ := List.exists_cons_of_ne_nil hne
        obtain ⟨o', os', rfl, -⟩ := exists_head_of_gather hos
        exact Outline.every_node (if_neg hkinds) rfl h.1
          (fun t ht => List.mem_map.mp (List.mem_of_mem_take ht)) hmembers

/-- What holds of a node that closes no cycle and has no members, and of one that did not fail,
holds of the node of every content. -/
theorem Content.obeys_of_defect {a : Attributes} (shape : Shape Value)
    (ha : a.defect ≠ some .cyclicalReference)
    (hbare : ∀ b, b.defect ≠ some .cyclicalReference → P b 0)
    (hwhole : ∀ b members, b.defect = none → P b members) : (shape.content a).Obeys P := by
  have hfits := content_fits a shape
  cases hc : shape.content a with
  | leaf b =>
      rw [hc] at hfits
      exact hbare b (hfits.1 ha)
  | same b v => trivial
  | each b members =>
      rw [hc] at hfits
      obtain ⟨-, -, hdefect, -⟩ := hfits
      exact hwhole b members.length hdefect
  | probed b elements =>
      rw [hc] at hfits
      obtain ⟨-, -, hdefect, -⟩ := hfits
      refine ⟨hwhole b 1 hdefect, fun kinds => hbare _ ?_⟩
      have hmixed : (Schema.mixedKinds kinds b).defect = some .sliceMultiType := rfl
      rw [hmixed]
      decide

theorem Content.Obeys.imp {R : Attributes → Nat → Prop} {c : Content} (h : c.Obeys P)
    (hPR : ∀ b members, P b members → R b members) : c.Obeys R := by
  cases c with
  | leaf b => exact hPR _ _ h
  | same b v => trivial
  | each b members => exact hPR _ _ h
  | probed b elements => exact ⟨hPR _ _ h.1, fun kinds => hPR _ _ (h.2 kinds)⟩

/-- What the content gives its node holds of the node of the outline, if it holds where the content
stands on the same node. -/
theorem Content.Obeys.exists_label {derive : Site → Option Outline} {c : Content} {top : Bool}
    {above : Finset String} {o : Outline} (h : c.Obeys P)
    (ho : c.outline derive top above = some o)
    (hsame : ∀ b v, c = .same b v → ∃ members, P o.tree.label members) :
    ∃ members, P o.tree.label members := by
  cases c with
  | leaf b =>
      obtain rfl := Option.some.inj ho
      exact ⟨0, h⟩
  | same b v => exact hsame b v rfl
  | each b members =>
      obtain ⟨os, -, ho⟩ := Option.bind_eq_some_iff.mp ho
      obtain rfl := Option.some.inj ho
      exact ⟨members.length, h⟩
  | probed b elements =>
      obtain ⟨⟨os, kinds⟩, -, ho⟩ := Option.bind_eq_some_iff.mp ho
      obtain rfl := Option.some.inj ho
      unfold Outline.list
      dsimp only
      split
      · exact ⟨0, h.2 kinds⟩
      · exact ⟨1, h.1⟩

/-- Below its head a level writes on the blocks, the named type and the defect of its node, and only
an empty slot takes the generic type away. -/
theorem Content.obeys_of_kept {β : Type} {f : Attributes → β}
    (hf : ∀ a typeRef overrides defect, f { a with typeRef, overrides, defect } = f a)
    (a : Attributes) {shape : Shape Value} (hshape : shape ≠ .slot none) :
    (shape.content a).Obeys fun b _ => f b = f a := by
  cases shape with
  | scalar kind =>
      rw [Shape.content, Attributes.settleScalar]
      split
      · exact hf a _ _ _
      · rfl
  | list fixed elements zero =>
      dsimp only [Shape.content]
      repeat' split
      · exact hf a _ _ _
      · exact hf a _ _ _
      · exact ⟨hf a _ _ _, fun _ => hf a _ _ _⟩
  | record fields =>
      dsimp only [Shape.content]
      repeat' split
      all_goals exact hf a _ _ _
  | map key keyType entries =>
      rw [Shape.content]
      repeat' split
      all_goals exact hf a _ _ _
  | slot target =>
      cases target with
      | none => exact absurd rfl hshape
      | some v => trivial
  | pointer target zero =>
      dsimp only [Shape.content]
      split
      · exact hf a _ _ _
      · trivial
  | nil => rfl

theorem Content.obeys_generic (a : Attributes) {shape : Shape Value} (hshape : shape ≠ .slot none) :
    (shape.content a).Obeys fun b _ => b.generic = a.generic :=
  obeys_of_kept (fun _ _ _ _ => rfl) a hshape

theorem isUnsupported_of_enters {l : Layer} {top : Bool} {above : Finset String}
    {name : Option String} (h : l.ruling top above = .enters name) : l.isUnsupported = false := by
  rw [Bool.eq_false_iff]
  intro hkind
  rw [Layer.ruling, if_pos hkind] at h
  cases h

/-- What every level keeps holds of every node. -/
theorem every_outline (h : Kept P Q) (depth : Nat) : ∀ {p : Site} {o : Outline},
    outline types depth p = some o → p.attrs.defect ≠ some .cyclicalReference →
      p.value.EveryLevel types Q → o.Every P := by
  induction depth with
  | zero => exact fun ho => nomatch ho
  | succ depth ih =>
      intro p o ho hattrs hlevels
      obtain ⟨l, hl, ⟨hr, rfl⟩ | ⟨name, content, hr, hcontent, rfl⟩⟩ := outline_succ_cases ho
      · exact Outline.every_leaf (h.refused (hlevels _ .refl l hl) hattrs hr)
      · have hobeys : (l.shape.content (p.attrs.head l.shape.kind (.enters name))).Obeys P :=
          h.entered (hlevels _ .refl l hl) hattrs (isUnsupported_of_enters hr)
        refine Outline.every_finish (hobeys.every hcontent fun q hq o' ho' => ?_) p l
        obtain ⟨hvalue, -, hdefect⟩ := mem_sites hq
        rw [defect_head_enters] at hdefect
        exact ih ho' (hdefect hattrs) (hlevels.member hl hvalue)

theorem every_outlines {v : Value} {o : Outline} (h : Kept P Q)
    (ho : Outlines types (.start v) o) (hv : v.EveryLevel types Q) : o.Every P := by
  obtain ⟨depth, ho⟩ := ho
  exact every_outline h depth ho (fun hd => nomatch hd) hv

theorem Outline.Every.exists_of_shows {o : Outline} {a : Attributes} (h : o.Every P)
    (ha : o.Shows a) : ∃ members, P a members := by
  rcases ha with ha | ⟨f, hf, ha⟩
  · obtain ⟨u, hu, rfl⟩ := Rose.exists_mem_subtrees ha
    exact ⟨_, h.1 u hu⟩
  · obtain ⟨u, hu, rfl⟩ := Rose.exists_mem_subtrees ha
    exact ⟨_, h.2 f hf u hu⟩

end Every

/-! ## Failed nodes -/

/-- A node that failed has no children. -/
def Attributes.FailsBare (a : Attributes) (members : Nat) : Prop :=
  a.defect.isSome = true → members = 0

theorem kept_failsBare : Kept Attributes.FailsBare fun _ => True where
  refused _ _ _ _ := rfl
  entered {a l name} _ ha _ := by
    rw [← defect_head_enters a l.shape.kind name] at ha
    refine Content.obeys_of_defect l.shape ha (fun _ _ _ => rfl) fun b members hdefect h => ?_
    rw [hdefect] at h
    cases h

/-! ## Trees cut down to references -/

namespace Rose

/-- What becomes of a tree when the one that it stands in is cut down. -/
inductive CutOf : Rose Attributes → Rose Attributes → Prop
  | kept {a : Attributes} {ts us : List (Rose Attributes)} (ha : a.isReference = false)
      (hlength : us.length = ts.length) : CutOf (.node a ts) (.node a us)
  | reference {a : Attributes} {ts : List (Rose Attributes)} (ha : a.isReference = true) :
      CutOf (.node a ts) (.node { a with defect := none } [])

theorem length_cutAll (ts : List (Rose Attributes)) : (cutAll ts).length = ts.length := by
  induction ts with
  | nil => rfl
  | cons t ts ih => rw [cutAll, List.length_cons, List.length_cons, ih]

theorem children_definition (t : Rose Attributes) : t.definition.children = cutAll t.children := by
  cases t
  rfl

mutual

/-- A reference that closes a cycle keeps its children, but it failed and has none. -/
theorem exists_cutOf_of_mem_cut : (t : Rose Attributes) → t.Every Attributes.FailsBare →
    ∀ {u : Rose Attributes}, u ∈ t.cut.subtrees → ∃ w ∈ t.subtrees, w.CutOf u
  | .node a ts, h, u, hu => by
      obtain ⟨ha, hts⟩ := every_node.mp h
      rw [cut] at hu
      split at hu
      · rename_i href
        have hbare : (if a.isCyclical then ts else []) = [] := by
          split
          · rename_i hcyc
            have hdefect : a.defect = some .cyclicalReference := beq_iff_eq.mp hcyc
            exact List.eq_nil_of_length_eq_zero (ha (by rw [hdefect]; rfl))
          · rfl
        rw [hbare] at hu
        obtain rfl := List.mem_singleton.mp hu
        exact ⟨_, self_mem_subtrees _, .reference href⟩
      · rename_i href
        rcases List.mem_cons.mp hu with rfl | hu
        · exact ⟨_, self_mem_subtrees _, .kept (Bool.eq_false_iff.mpr href) (length_cutAll ts)⟩
        · obtain ⟨w, hw, hwu⟩ := exists_cutOf_of_mem_cutAll ts hts hu
          exact ⟨w, List.mem_cons_of_mem _ hw, hwu⟩

theorem exists_cutOf_of_mem_cutAll : (ts : List (Rose Attributes)) →
    (∀ t ∈ ts, t.Every Attributes.FailsBare) → ∀ {u : Rose Attributes},
      u ∈ subtreesAll (cutAll ts) → ∃ w ∈ subtreesAll ts, w.CutOf u
  | t :: ts, h, u, hu => by
      rcases List.mem_append.mp hu with hu | hu
      · obtain ⟨w, hw, hwu⟩ := exists_cutOf_of_mem_cut t (h t List.mem_cons_self) hu
        exact ⟨w, List.mem_append_left _ hw, hwu⟩
      · obtain ⟨w, hw, hwu⟩ := exists_cutOf_of_mem_cutAll ts
          (fun t' ht' => h t' (List.mem_cons_of_mem t ht')) hu
        exact ⟨w, List.mem_append_right _ hw, hwu⟩

end

end Rose

/-! ## Where the nodes of a schema come from -/

section Nodes

variable {s : Schema} {o : Outline} {d k : NodeId}

namespace Schema

theorem label_tree (s : Schema) (k : NodeId) : (s.tree k).label = s.attrs k := by
  rw [tree, Rose.label_map, subtree]
  cases h : s.subtree? k with
  | none => rfl
  | some r =>
      obtain ⟨rfl, -⟩ := traces_of_subtree? h
      rfl

/-- The tree shows what is reached. -/
theorem mem_preorder_tree {id : NodeId} {r : Rose NodeId} (h : s.subtree? id = some r)
    {a : Attributes} :
    a ∈ (s.tree id).preorder ↔ ∃ k, ReflTransGen s.Owns id k ∧ s.attrs k = a := by
  rw [tree, Rose.preorder_map, subtree_eq h, List.mem_map]
  exact exists_congr fun k => and_congr_left' (mem_preorder_iff h)

/-- The children of a node that is reached are those of its tree. -/
theorem length_children_tree {id : NodeId} {r : Rose NodeId} (h : s.subtree? id = some r)
    (hk : ReflTransGen s.Owns id k) : (s.tree k).children.length = (s.children k).length := by
  obtain ⟨q, hq⟩ := exists_subtree?_of_reaches h hk
  rw [tree_eq_node hq, Rose.children, List.length_map]

theorem Linked.length_children_tree (hs : s.Linked)
    (hk : TransGen s.Owns s.root k ∨ TransGen s.Owns s.typeRefs k) :
    (s.tree k).children.length = (s.children k).length := by
  obtain ⟨r, q, hr, hq⟩ := hs.exists_trees
  rcases hk with hk | hk
  · exact Schema.length_children_tree hr hk.to_reflTransGen
  · exact Schema.length_children_tree hq hk.to_reflTransGen

end Schema

theorem tree_mem_of_below_root (hs : s.Linked) (ho : s.Renders o)
    (hk : TransGen s.Owns s.root k) : s.tree k ∈ o.tree.subtrees := by
  obtain ⟨r, -, hr, -⟩ := hs.exists_trees
  obtain ⟨t, ht, hkt⟩ := Schema.exists_child_of_transGen hr hk
  rw [ho.root_eq] at ht
  obtain rfl := List.mem_singleton.mp ht
  exact hkt

/-- The trees of the definitions are the registry, in its order. -/
theorem map_tree_definitions (hs : s.Linked) (ho : s.Renders o) :
    (s.children s.typeRefs).map s.tree = recordAll [] o.finished := by
  obtain ⟨-, q, -, hq⟩ := hs.exists_trees
  have htree := ho.typeRefs_eq
  rw [Schema.tree_eq_node hq] at htree
  exact (Rose.node.inj htree).2

theorem exists_finished_of_definition (hs : s.Linked) (ho : s.Renders o)
    (hd : d ∈ s.children s.typeRefs) :
    ∃ f ∈ o.finished, ∃ n, f.Defines n ∧ s.tree d = f.tree.definition := by
  have hmem : s.tree d ∈ recordAll [] o.finished := by
    rw [← map_tree_definitions hs ho]
    exact List.mem_map_of_mem hd
  rcases mem_recordAll hmem with hmem | hf
  · exact absurd hmem List.not_mem_nil
  · exact hf

theorem exists_cutOf_of_below_definition (hs : s.Linked) (ho : s.Renders o)
    (hbare : o.Every Attributes.FailsBare) (hd : d ∈ s.children s.typeRefs)
    (hk : TransGen s.Owns d k) : ∃ f ∈ o.finished, ∃ w ∈ f.tree.subtrees, w.CutOf (s.tree k) := by
  obtain ⟨-, q, -, hq⟩ := hs.exists_trees
  obtain ⟨f, hf, n, -, htree⟩ := exists_finished_of_definition hs ho hd
  obtain ⟨p, hp⟩ := Schema.exists_subtree?_of_reaches hq (.single hd)
  obtain ⟨t, ht, hkt⟩ := Schema.exists_child_of_transGen hp hk
  rw [htree, Rose.children_definition] at ht
  have hbelow : ∀ t ∈ f.tree.children, t.Every Attributes.FailsBare := fun t ht u hu =>
    hbare.2 f hf u (Rose.mem_subtrees_iff.mpr (.inr ⟨t, ht, hu⟩))
  obtain ⟨w, hw, hcut⟩ := Rose.exists_cutOf_of_mem_cutAll f.tree.children hbelow
    (Rose.mem_subtreesAll.mpr ⟨t, ht, hkt⟩)
  obtain ⟨t', ht', hwt⟩ := Rose.mem_subtreesAll.mp hw
  exact ⟨f, hf, w, Rose.mem_subtrees_iff.mpr (.inr ⟨t', ht', hwt⟩), hcut⟩

end Nodes

end TypeOutline
