import TypeOutline.Proofs.Arena.Trees
import TypeOutline.Proofs.Related
import TypeOutline.Render.OpenApi
import TypeOutline.Render.Simple

/-!
# What a rendering shows

A rendering walks a tree with the children of each node in the order of
their names, and stops at references unless they are resolved. Here the
walk is a tree of its own, `Schema.shownTree`, which does not speak of
ids: what the renderers list are the ways to its nodes
(`Schema.map_way_shown`). A node shows its `Face`.
-/

namespace TypeOutline

namespace Rose

variable {α β : Type}

theorem sortByAll_eq_map (le : α → α → Bool) (ts : List (Rose α)) :
    sortByAll le ts = ts.map (sortBy le) := by
  induction ts with
  | nil => rfl
  | cons t ts ih => rw [sortByAll, ih, List.map_cons]

theorem label_sortBy (le : α → α → Bool) (t : Rose α) : (t.sortBy le).label = t.label := by
  cases t
  rfl

mutual

/-- The order is read off the new labels as off the old ones. -/
theorem map_sortBy {f : α → β} {le : α → α → Bool} {le' : β → β → Bool} : (t : Rose α) →
    (∀ a ∈ t.preorder, ∀ b ∈ t.preorder, le a b = le' (f a) (f b)) →
      (t.sortBy le).map f = (t.map f).sortBy le'
  | node a ts, hle => by
      rw [sortBy, map, map, sortBy, mapAll_eq_map, ← sortByAll_mapAll ts fun x hx y hy =>
        hle x (List.mem_cons_of_mem a hx) y (List.mem_cons_of_mem a hy), mapAll_eq_map,
        List.map_mergeSort]
      have hlabel : ∀ t ∈ sortByAll le ts, t.label ∈ (node a ts).preorder := by
        intro t ht
        rw [sortByAll_eq_map] at ht
        obtain ⟨u, hu, rfl⟩ := List.mem_map.mp ht
        rw [label_sortBy]
        exact List.mem_cons_of_mem a (mem_preorderAll.mpr ⟨u, hu, u.label_mem_preorder⟩)
      intro t ht u hu
      rw [label_map, label_map]
      exact hle _ (hlabel t ht) _ (hlabel u hu)

theorem sortByAll_mapAll {f : α → β} {le : α → α → Bool} {le' : β → β → Bool} :
    (ts : List (Rose α)) →
    (∀ a ∈ preorderAll ts, ∀ b ∈ preorderAll ts, le a b = le' (f a) (f b)) →
      mapAll f (sortByAll le ts) = sortByAll le' (mapAll f ts)
  | [], _ => rfl
  | t :: ts, hle => by
      rw [sortByAll, mapAll, mapAll, sortByAll, map_sortBy t fun x hx y hy =>
        hle x (List.mem_append_left _ hx) y (List.mem_append_left _ hy),
        sortByAll_mapAll ts fun x hx y hy =>
          hle x (List.mem_append_right _ hx) y (List.mem_append_right _ hy)]

end

/-! ## Trees in the order of names -/

/-- The tree with the children of each node in the order of their names. -/
def ordered (name : α → String) : Rose α → Rose α := sortBy fun a b => decide (name a ≤ name b)

/-- Trees in the order of names, and so the children in each. -/
def orderedAll (name : α → String) (ts : List (Rose α)) : List (Rose α) :=
  (ts.map (ordered name)).mergeSort fun t u => decide (name t.label ≤ name u.label)

variable {name : α → String}

theorem orderedAll_nil : orderedAll name ([] : List (Rose α)) = [] := by
  rw [orderedAll, List.map_nil, List.mergeSort_nil]

theorem label_ordered (t : Rose α) : (t.ordered name).label = t.label := label_sortBy _ t

theorem ordered_node (a : α) (ts : List (Rose α)) :
    (node a ts).ordered name = .node a (orderedAll name ts) := by
  rw [ordered, sortBy, sortByAll_eq_map]
  rfl

theorem children_ordered (t : Rose α) : (t.ordered name).children = orderedAll name t.children := by
  obtain ⟨a, ts⟩ := t
  rw [ordered_node]
  rfl

theorem map_ordered {name' : β → String} {f : α → β} (hf : ∀ a, name' (f a) = name a)
    (t : Rose α) : (t.ordered name).map f = (t.map f).ordered name' :=
  map_sortBy t fun a _ b _ => by rw [hf, hf]

theorem exists_of_mem_orderedAll {ts : List (Rose α)} {t : Rose α} (h : t ∈ orderedAll name ts) :
    ∃ u ∈ ts, u.ordered name = t := List.mem_map.mp (List.mem_mergeSort.mp h)

/-- The tree of a name is the same one, in order. -/
theorem find?_orderedAll (ts : List (Rose α)) (n : String) :
    (orderedAll name ts).find? (name ·.label == n) =
      (ts.find? (name ·.label == n)).map (ordered name) := by
  rw [orderedAll, find?_mergeSort, List.find?_map]
  · simp only [Function.comp_def, label_ordered]
  · intro t u v htu huv
    exact decide_eq_true (String.le_trans (of_decide_eq_true htu) (of_decide_eq_true huv))
  · intro t u
    rw [Bool.or_eq_true, decide_eq_true_eq, decide_eq_true_eq]
    exact String.le_total _ _
  · intro t u ht hu
    rw [beq_iff_eq.mp ht, beq_iff_eq.mp hu]
    exact decide_eq_true (String.le_refl _)

/-! ## Trees down to references -/

mutual

/-- The nodes of a tree that a rendering shows. -/
def shown (o : RenderOptions) : Rose Attributes → Rose Attributes
  | .node a ts => .node a (if Schema.expands o a then shownAll o ts else [])

def shownAll (o : RenderOptions) : List (Rose Attributes) → List (Rose Attributes)
  | [] => []
  | t :: ts => t.shown o :: shownAll o ts

end

theorem shownAll_eq_map (o : RenderOptions) (ts : List (Rose Attributes)) :
    shownAll o ts = ts.map (shown o) := by
  induction ts with
  | nil => rfl
  | cons t ts ih => rw [shownAll, ih, List.map_cons]

theorem label_shown (o : RenderOptions) (t : Rose Attributes) : (t.shown o).label = t.label := by
  cases t
  rfl

theorem children_shown {o : RenderOptions} {t : Rose Attributes}
    (h : Schema.expands o t.label = true) : (t.shown o).children = shownAll o t.children := by
  obtain ⟨a, ts⟩ := t
  have h : Schema.expands o a = true := h
  rw [shown, if_pos h]
  rfl

mutual

/-- Nothing is left out where references are resolved. -/
theorem shown_of_dereference {o : RenderOptions} (ho : o.dereference = true) :
    (t : Rose Attributes) → t.shown o = t
  | .node a ts => by
      rw [shown, Schema.expands, ho, Bool.true_or, if_pos rfl, shownAll_of_dereference ho ts]

theorem shownAll_of_dereference {o : RenderOptions} (ho : o.dereference = true) :
    (ts : List (Rose Attributes)) → shownAll o ts = ts
  | [] => rfl
  | t :: ts => by rw [shownAll, shown_of_dereference ho t, shownAll_of_dereference ho ts]

end

end Rose

namespace Schema

/-- What a rendering shows at and below a node. -/
def shownTree (s : Schema) (o : RenderOptions) (id : NodeId) : Rose Attributes :=
  ((s.tree id).ordered Attributes.name).shown o

theorem map_attrs_orderedSubtree (s : Schema) (id : NodeId) :
    (s.orderedSubtree id).map s.attrs = (s.tree id).ordered Attributes.name := by
  rw [orderedSubtree, Rose.ordered, Schema.tree]
  exact Rose.map_sortBy _ fun _ _ _ _ => rfl

end Schema

/-! ## Blocks -/

namespace OpenApi

mutual

/-- The block of a tree at an indent. -/
def treeBlock (o : RenderOptions) (url : Option String) (indent : UInt64) :
    Rose Attributes → List Line
  | .node a ts =>
      if hidden a then []
      else
        let (opening, inner) :=
          if a.isRoot then openSection url a.name indent else openNode o url a indent
        opening ++ if Schema.expands o a then treeBlocks o url inner ts else []

def treeBlocks (o : RenderOptions) (url : Option String) (indent : UInt64) :
    List (Rose Attributes) → List Line
  | [] => []
  | t :: ts => treeBlock o url indent t ++ treeBlocks o url indent ts

end

variable {o : RenderOptions} {url : Option String}

mutual

theorem block_eq_treeBlock (s : Schema) (indent : UInt64) : (t : Rose NodeId) →
    block s o url indent t = treeBlock o url indent (t.map s.attrs)
  | .node id ts => by
      rw [block, Rose.map, treeBlock]
      simp only [blocks_eq_treeBlocks s _ ts]

theorem blocks_eq_treeBlocks (s : Schema) (indent : UInt64) : (ts : List (Rose NodeId)) →
    blocks s o url indent ts = treeBlocks o url indent (Rose.mapAll s.attrs ts)
  | [] => rfl
  | t :: ts => by
      rw [blocks, Rose.mapAll, treeBlocks, block_eq_treeBlock s indent t,
        blocks_eq_treeBlocks s indent ts]

end

/-- The lines of a tree, children in the order of their names. -/
def linesOf (o : RenderOptions) (url : Option String) (t : Rose Attributes) : List String :=
  (treeBlock o url o.indent (t.ordered Attributes.name)).map (·.text)

/-- The block of a node is made of the tree below it alone. -/
theorem blockOf_eq_treeBlock (s : Schema) (id : NodeId) :
    blockOf s o url id = treeBlock o url o.indent ((s.tree id).ordered Attributes.name) := by
  rw [blockOf, block_eq_treeBlock, Schema.map_attrs_orderedSubtree]

theorem lines_eq_linesOf (s : Schema) (id : NodeId) :
    lines s o url id = linesOf o url (s.tree id) := by
  rw [lines, blockOf_eq_treeBlock, linesOf]

end OpenApi

/-! ## What is shown of a node -/

/-- What a node shows, but for the name of its type. -/
structure Face where
  name : String
  type : String
  nullable : Bool
  defect : Option Defect
deriving Repr, DecidableEq

namespace Attributes

def face (a : Attributes) : Face where
  name := a.name
  type := a.typeLabel
  nullable := a.nullable
  defect := a.defect

end Attributes

end TypeOutline
