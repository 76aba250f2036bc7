import TypeOutline.Proofs.Rendering.Renumbered
import TypeOutline.Proofs.Rendering.Retagged

/-!
# The lines of trees

In every dialect the lines of a schema, and whether they can be made, are
functions of its two trees (`Schema.Linked.lines_eq`). That needs the
ownership law alone: the attributes may be anything. A node below a top
may then look like a top itself, and where one does, the JSON dialect
starts the path anew (`JsonPath.wayPath`).
-/

namespace TypeOutline

open Relation (ReflTransGen TransGen)

/-! ## Ways that stop early -/

section Stopping

variable {α β : Type}

/-- The elements up to the first that `stops` accepts, which is the last one taken. -/
def upTo (stops : α → Bool) : List α → List α
  | [] => []
  | a :: as => if stops a then [a] else a :: upTo stops as

theorem map_upTo {stops : α → Bool} {stops' : β → Bool} {f : α → β} {xs : List α}
    (hf : ∀ x ∈ xs, stops' (f x) = stops x) :
    (upTo stops xs).map f = upTo stops' (xs.map f) := by
  induction xs with
  | nil => rfl
  | cons x xs ih =>
      rw [upTo, List.map_cons, upTo, hf x List.mem_cons_self,
        ← ih fun y hy => hf y (List.mem_cons_of_mem x hy)]
      split <;> rfl

theorem prefix_upTo (stops : α → Bool) (xs : List α) : upTo stops xs <+: xs := by
  induction xs with
  | nil => exact List.prefix_refl _
  | cons x xs ih =>
      rw [upTo]
      split
      · exact (List.prefix_cons_inj x).mpr List.nil_prefix
      · exact (List.prefix_cons_inj x).mpr ih

end Stopping

namespace Schema

variable {s : Schema} {top k : NodeId} {ks : List NodeId} {stops : Attributes → Bool}

/-- The way up is the way down from the top, as far as nothing stops it. -/
theorem ascends_of_descends (hs : s.Linked) (hlt : top < s.nodes.size)
    (htop : s.parent? top = none) (h : Descends s top k ks) :
    Ascends s stops k (upTo (fun n => stops n.toAttributes) (ks.map s.nodeOf)) := by
  induction h with
  | top =>
      have hparent := (parent_nodeOf hlt).trans htop
      have hone : upTo (fun n => stops n.toAttributes) [s.nodeOf top] = [s.nodeOf top] :=
        ite_self _
      rw [List.map_singleton, hone]
      exact .last (node?_eq_nodeOf hlt) (.inr hparent)
  | @child p c ks hp hc ih =>
      have hnode := node?_eq_nodeOf (hs.lt_size_of_mem hc)
      have hparent := (parent_nodeOf (hs.lt_size_of_mem hc)).trans (hs.mem_children_iff.mp hc)
      rw [List.map_cons, upTo]
      split
      · rename_i hstop
        exact .last hnode (.inl hstop)
      · rename_i hgoes
        exact .up hnode (Bool.eq_false_iff.mpr hgoes) hparent ih

/-- The nodes from the last one that `stops` accepts down to a node. -/
theorem lineage_eq (hs : s.Linked) (hlt : top < s.nodes.size) (htop : s.parent? top = none)
    (hk : ReflTransGen s.Owns top k) :
    s.lineage stops k = (upTo stops (s.way k).reverse).reverse := by
  obtain ⟨ks, hks⟩ := exists_descends hk
  have hattrs : (ks.map s.nodeOf).map (·.toAttributes) = ks.map s.attrs := by
    rw [List.map_map]
    exact List.map_congr_left fun j hj => attrs_nodeOf (hks.lt_size hs hlt j hj)
  have hlength := (prefix_upTo (fun n : Node => stops n.toAttributes) (ks.map s.nodeOf)).length_le
  have hle := hks.length_le hs hlt (hs.not_transGen_of_parent?_none htop)
  rw [List.length_map] at hlength
  have hfound := lineage?_eq_some_iff.mpr
    ⟨ascends_of_descends hs hlt htop hks, Nat.le_succ_of_le (Nat.le_trans hlength hle)⟩
  rw [lineage, hfound, Option.getD_some, way_of_descends hs hlt htop hks, List.reverse_reverse,
    map_upTo fun _ _ => rfl, hattrs]

end Schema

/-! ## Lines of ways in the JSON dialect -/

namespace JsonPath

variable {s : Schema} {o : RenderOptions} {top k : NodeId}

/-- The path of a way, from the last node on it that looks like a top. -/
def wayPath (o : RenderOptions) (way : List Attributes) : List String :=
  (upTo (·.isRoot) way.reverse).reverse.map fun a =>
    if a.isRoot then topToken a.name else segment o a

/-- The line of the node at the end of a way. -/
def wayLine? (o : RenderOptions) (way : List Attributes) : Option String :=
  way.getLast?.bind fun a =>
    if a.isRoot then none else some (pathLine ((wayPath o way).map quoteSegment) a.defect)

/-- The JSON lines of what is shown of a tree, whatever its nodes look like. -/
def listedLines (o : RenderOptions) (t : Rose Attributes) : List String :=
  ((t.shownWays o).filter (·.all (!hidden ·))).filterMap (wayLine? o)

theorem line?_eq_wayLine? (hs : s.Linked) (htop : s.IsTop top) (hk : ReflTransGen s.Owns top k) :
    line? s o k = wayLine? o (s.way k) := by
  have hlt := hs.isTop_lt htop
  have hparent := hs.parent?_isTop htop
  rw [line?, path, Schema.lineage_eq hs hlt hparent hk, wayLine?,
    Schema.getLast?_way hs hlt hparent hk]
  rfl

theorem filterMap_line?_eq (hs : s.Linked) (htop : s.IsTop top) :
    (shown s o top).filterMap (line? s o) = listedLines o (s.tree top) := by
  have hlt := hs.isTop_lt htop
  have hparent := hs.parent?_isTop htop
  have hclear : s.clear hidden = (fun way => way.all (!hidden ·)) ∘ s.way := rfl
  rw [listedLines, Rose.shownWays, ← Schema.shownTree, ← Schema.map_way_shown hs hlt hparent,
    List.filter_map, List.filterMap_map, shown,
    Schema.shown_orderedSubtree_eq_filter hs hlt hparent, hclear]
  refine List.filterMap_congr fun k hk => ?_
  exact line?_eq_wayLine? hs htop (reaches_of_mem_simple_shown hs htop (List.mem_filter.mp hk).1)

end JsonPath

/-! ## Lines of trees -/

namespace Dialect

variable (d : Dialect) (o : RenderOptions) (url : Option String)

/-- The lines of a tree, from its top on. -/
def treeLines (t : Rose Attributes) : List String :=
  match d with
  | .simple => (Simple.linesOf o t).filter (· ≠ "")
  | .json => (JsonPath.listedLines o t).filter (· ≠ "")
  | .openApi => OpenApi.linesOf o url t

/-- Some line of a tree is indented too far. Paths have no indents. -/
def treeFault (t : Rose Attributes) : Bool :=
  match d with
  | .simple | .json => false
  | .openApi => (OpenApi.treeBlock o url o.indent (t.ordered Attributes.name)).any (·.tooWide)

/-- The lines of a tree with something below its top. -/
def topLines (t : Rose Attributes) : List String :=
  if t.children.isEmpty then [] else d.treeLines o url t

def topFault (t : Rose Attributes) : Bool := !t.children.isEmpty && d.treeFault o url t

/-- The lines of a schema with these two trees. -/
def linesOf (definitions value : Rose Attributes) : List String :=
  Schema.headerLines d url
    ++ ((if o.dereference then [] else d.topLines o url definitions)
      ++ d.topLines o url value).filter (· ≠ "")

def linesFaultOf (definitions value : Rose Attributes) : Bool :=
  (!o.dereference && d.topFault o url definitions) || d.topFault o url value

end Dialect

namespace Schema

variable {s : Schema} {top : NodeId} (d : Dialect) (o : RenderOptions) (url : Option String)

/-- What is shown of a top is made of its tree alone. -/
theorem Linked.elementLines_eq (hs : s.Linked) (htop : s.IsTop top) :
    s.elementLines d o url top = d.treeLines o url (s.tree top)
      ∧ s.elementFaults d o url top = d.treeFault o url (s.tree top) := by
  have hpaths : d ≠ .openApi → s.elementFaults d o url top = false :=
    hs.elementFaults_eq_false (hs.isTop_lt htop) (hs.parent?_isTop htop) .refl
  cases d with
  | simple => exact ⟨congrArg _ (simple_filterMap_eq hs htop), hpaths Dialect.noConfusion⟩
  | json => exact ⟨congrArg _ (JsonPath.filterMap_line?_eq hs htop), hpaths Dialect.noConfusion⟩
  | openApi =>
      refine ⟨OpenApi.lines_eq_linesOf s top, ?_⟩
      rw [elementFaults, has_of_lt (hs.isTop_lt htop), Bool.not_true, Bool.false_or,
        OpenApi.blockOf_eq_treeBlock]
      rfl

theorem Linked.treeLines_eq (hs : s.Linked) (htop : s.IsTop top) :
    s.treeLines d o url top = d.topLines o url (s.tree top) := by
  rw [treeLines, hs.isEmpty_children_eq htop, (hs.elementLines_eq d o url htop).1]
  rfl

/-- The lines of a schema are those of its trees, and can be made if theirs can. -/
theorem Linked.lines_eq (hs : s.Linked) :
    s.lines d o url = d.linesOf o url (s.tree s.typeRefs) (s.tree s.root)
      ∧ s.linesFault d o url = d.linesFaultOf o url (s.tree s.typeRefs) (s.tree s.root) := by
  constructor
  · rw [lines, hs.treeLines_eq d o url (.inl rfl), hs.treeLines_eq d o url (.inr rfl)]
    rfl
  · rw [linesFault, hs.isEmpty_children_eq (.inl rfl), hs.isEmpty_children_eq (.inr rfl),
      (hs.elementLines_eq d o url (.inl rfl)).2, (hs.elementLines_eq d o url (.inr rfl)).2,
      Bool.and_assoc]
    rfl

end Schema

end TypeOutline
