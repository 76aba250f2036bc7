import TypeOutline.Proofs.Arena.Renumbering
import TypeOutline.Proofs.Arena.Subtrees
import TypeOutline.Proofs.Rendering.Shown
import TypeOutline.Render.Lines

/-!
# The lines of a tree

The simple dialect shows a node by its path, which it finds by the links
to the parents. By the ownership law these lead back along the way that
the walk over the tree came (`lineage_of_descends`), so the path of a
child is the path of its parent and one segment more (`path_child`). The
lines of a node are then a plain recursion over the tree that is shown
below it (`lines_eq`), which does not speak of ids.
-/

namespace TypeOutline

open Relation (ReflTransGen)

/-! ## The lines of a tree without ids -/

namespace Simple

mutual

/-- The lines of a tree below a path. -/
def treeLines (o : RenderOptions) (above : List String) : Rose Attributes → List String
  | .node a ts =>
      let path := above ++ [quoteSegment (segment o a)]
      (if a.isRoot then [] else [pathLine path a.defect]) ++ treeLinesAll o path ts

def treeLinesAll (o : RenderOptions) (above : List String) : List (Rose Attributes) → List String
  | [] => []
  | t :: ts => treeLines o above t ++ treeLinesAll o above ts

end

end Simple

namespace Schema

variable {s : Schema} {top k c : NodeId} {ks : List NodeId} {o : RenderOptions}

/-! ## The way up -/

theorem lineageWithin?_of_descends {stops : Attributes → Bool} (hs : s.Linked)
    (hlt : top < s.nodes.size) (htop : s.parent? top = none) (h : Descends s top k ks)
    (hstops : ∀ j ∈ ks, j ≠ top → stops (s.attrs j) = false) : ∀ {depth : Nat},
    ks.length ≤ depth → s.lineageWithin? stops depth k = some (ks.map s.nodeOf) := by
  induction h with
  | top =>
      intro depth hdepth
      obtain ⟨depth, rfl⟩ := Nat.exists_eq_add_of_le' hdepth
      have hparent := (parent_nodeOf hlt).trans htop
      simp only [List.length_singleton, lineageWithin?, node?_eq_nodeOf hlt,
        Option.bind_eq_bind, Option.bind_some, hparent]
      exact ite_self _
  | @child p c ks hp hc ih =>
      intro depth hdepth
      rw [List.length_cons] at hdepth
      obtain ⟨depth, rfl⟩ := Nat.exists_eq_add_of_le' (Nat.le_trans (Nat.le_add_left 1 _) hdepth)
      have hck := hs.lt_size_of_mem hc
      have hparent := (parent_nodeOf hck).trans (hs.mem_children_iff.mp hc)
      have hne : c ≠ top := fun heq => hs.not_mem_of_parent?_none htop p (heq ▸ hc)
      have hgoes := hstops c List.mem_cons_self hne
      rw [← attrs_nodeOf hck] at hgoes
      have hrest := ih (fun j hj => hstops j (List.mem_cons_of_mem c hj))
        (Nat.le_of_succ_le_succ hdepth)
      simp only [lineageWithin?, node?_eq_nodeOf hck, Option.bind_eq_bind, Option.bind_some,
        hparent, hrest, hgoes]
      rfl

/-- The nodes on the way to the top are those on the way down from it, if
none of them stops the way up. -/
theorem lineage_of_descends {stops : Attributes → Bool} (hs : s.Linked)
    (hlt : top < s.nodes.size) (htop : s.parent? top = none) (h : Descends s top k ks)
    (hstops : ∀ j ∈ ks, j ≠ top → stops (s.attrs j) = false) :
    s.lineage stops k = (ks.map s.attrs).reverse := by
  have hle := h.length_le hs hlt (hs.not_transGen_of_parent?_none htop)
  have hfound := lineageWithin?_of_descends hs hlt htop h hstops (Nat.le_succ_of_le hle)
  rw [lineage, lineage?, hfound, Option.getD_some, List.map_map]
  congr 1
  exact List.map_congr_left fun x hx => attrs_nodeOf (h.lt_size hs hlt x hx)

theorem exists_descends (h : ReflTransGen s.Owns top k) : ∃ ks, Descends s top k ks := by
  induction h with
  | refl => exact ⟨_, .top⟩
  | tail _ hstep ih =>
      obtain ⟨ks, hks⟩ := ih
      exact ⟨_, hks.child hstep⟩

/-- The attributes of the nodes from the top of its tree down to a node. -/
def way (s : Schema) (k : NodeId) : List Attributes := s.lineage (fun _ => false) k

theorem way_of_descends (hs : s.Linked) (hlt : top < s.nodes.size) (htop : s.parent? top = none)
    (h : Descends s top k ks) : s.way k = (ks.map s.attrs).reverse :=
  lineage_of_descends hs hlt htop h fun _ _ _ => rfl

theorem way_top (hs : s.Linked) (hlt : top < s.nodes.size) (htop : s.parent? top = none) :
    s.way top = [s.attrs top] :=
  way_of_descends hs hlt htop .top

theorem way_child (hs : s.Linked) (hlt : top < s.nodes.size) (htop : s.parent? top = none)
    (hk : ReflTransGen s.Owns top k) (hc : c ∈ s.children k) :
    s.way c = s.way k ++ [s.attrs c] := by
  obtain ⟨ks, hks⟩ := exists_descends hk
  rw [way_of_descends hs hlt htop hks, way_of_descends hs hlt htop (hks.child hc), List.map_cons,
    List.reverse_cons]

/-- A way starts at the top. -/
theorem exists_way_eq_cons (hs : s.Linked) (hlt : top < s.nodes.size)
    (htop : s.parent? top = none) (hk : ReflTransGen s.Owns top k) :
    ∃ below, s.way k = s.attrs top :: below := by
  induction hk with
  | refl => exact ⟨[], way_top hs hlt htop⟩
  | @tail k c hk hc ih =>
      obtain ⟨below, hway⟩ := ih
      refine ⟨below ++ [s.attrs c], ?_⟩
      rw [way_child hs hlt htop hk hc, hway, List.cons_append]

/-! ## Paths -/

/-- The path of a top is its name. -/
theorem path_top (hs : s.Linked) (hlt : top < s.nodes.size) (htop : s.parent? top = none) :
    Simple.path s o top = [(s.attrs top).name] := by
  rw [Simple.path, ← way, way_top hs hlt htop]
  rfl

/-- The path of a child is that of its parent and a segment for the child. -/
theorem path_child (hs : s.Linked) (hlt : top < s.nodes.size) (htop : s.parent? top = none)
    (hk : ReflTransGen s.Owns top k) (hc : c ∈ s.children k) :
    Simple.path s o c = Simple.path s o k ++ [quoteSegment (Simple.segment o (s.attrs c))] := by
  obtain ⟨below, hway⟩ := exists_way_eq_cons hs hlt htop hk
  rw [Simple.path, Simple.path, ← way, ← way, way_child hs hlt htop hk hc, hway]
  simp

/-! ## Walking down -/

mutual

/-- Every node of the tree is a child of the one above it. -/
def Hangs (s : Schema) : Rose NodeId → Prop
  | .node id ts => HangsAll s id ts

def HangsAll (s : Schema) (parent : NodeId) : List (Rose NodeId) → Prop
  | [] => True
  | t :: ts => t.label ∈ s.children parent ∧ Hangs s t ∧ HangsAll s parent ts

end

theorem hangsAll_iff {p : NodeId} {ts : List (Rose NodeId)} :
    HangsAll s p ts ↔ ∀ t ∈ ts, t.label ∈ s.children p ∧ Hangs s t := by
  induction ts with
  | nil => simp [HangsAll]
  | cons t ts ih =>
      rw [HangsAll, ih]
      simp [and_assoc]

mutual

theorem hangs_of_traces : (t : Rose NodeId) → Traces s t → Hangs s t
  | .node id ts, h => by
      rw [Hangs]
      refine hangsAll_of_tracesAll ts h.2 fun t ht => ?_
      rw [h.1]
      exact List.mem_map_of_mem ht

theorem hangsAll_of_tracesAll {p : NodeId} : (ts : List (Rose NodeId)) → TracesAll s ts →
    (∀ t ∈ ts, t.label ∈ s.children p) → HangsAll s p ts
  | [], _, _ => trivial
  | t :: ts, h, hmem =>
      ⟨hmem t List.mem_cons_self, hangs_of_traces t h.1,
        hangsAll_of_tracesAll ts h.2 fun u hu => hmem u (List.mem_cons_of_mem t hu)⟩

end

mutual

/-- The order of the children does not matter. -/
theorem Hangs.sortBy (le : NodeId → NodeId → Bool) : (t : Rose NodeId) → Hangs s t →
    Hangs s (t.sortBy le)
  | .node id ts, h => by
      rw [Rose.sortBy, Hangs, hangsAll_iff]
      intro t ht
      exact hangsAll_iff.mp (HangsAll.sortByAll le ts h) t (List.mem_mergeSort.mp ht)

theorem HangsAll.sortByAll (le : NodeId → NodeId → Bool) {p : NodeId} :
    (ts : List (Rose NodeId)) → HangsAll s p ts → HangsAll s p (Rose.sortByAll le ts)
  | [], _ => trivial
  | t :: ts, h => by
      refine ⟨?_, h.2.1.sortBy le t, HangsAll.sortByAll le ts h.2.2⟩
      rw [Rose.label_sortBy]
      exact h.1

end

mutual

theorem filterMap_line?_shown (hs : s.Linked) (hlt : top < s.nodes.size)
    (htop : s.parent? top = none) : (t : Rose NodeId) → Hangs s t → ∀ {above : List String},
    ReflTransGen s.Owns top t.label →
    Simple.path s o t.label = above ++ [quoteSegment (Simple.segment o (s.attrs t.label))] →
      (s.shown o (fun _ => false) t).filterMap (Simple.line? s o) =
        Simple.treeLines o above ((t.map s.attrs).shown o)
  | .node id ts, h, above, hreach, hpath => by
      have hpath : Simple.path s o id =
          above ++ [quoteSegment (Simple.segment o (s.attrs id))] := hpath
      have hbelow : (if expands o (s.attrs id) then s.shownAll o (fun _ => false) ts
          else []).filterMap (Simple.line? s o) = Simple.treeLinesAll o (Simple.path s o id)
            (if expands o (s.attrs id) then Rose.shownAll o (Rose.mapAll s.attrs ts) else []) := by
        split
        · exact filterMap_line?_shownAll hs hlt htop ts h hreach
        · rfl
      rw [shown, if_neg Bool.false_ne_true, Rose.map, Rose.shown, Simple.treeLines, ← hpath,
        ← hbelow]
      by_cases hroot : (s.attrs id).isRoot = true
      · have hline : Simple.line? s o id = none := if_pos hroot
        rw [List.filterMap_cons_none hline, if_pos hroot, List.nil_append]
      · have hline : Simple.line? s o id =
            some (pathLine (Simple.path s o id) (s.attrs id).defect) := if_neg hroot
        rw [List.filterMap_cons_some hline, if_neg hroot, List.singleton_append]

theorem filterMap_line?_shownAll (hs : s.Linked) (hlt : top < s.nodes.size)
    (htop : s.parent? top = none) {p : NodeId} : (ts : List (Rose NodeId)) → HangsAll s p ts →
    ReflTransGen s.Owns top p →
      (s.shownAll o (fun _ => false) ts).filterMap (Simple.line? s o) =
        Simple.treeLinesAll o (Simple.path s o p) (Rose.shownAll o (Rose.mapAll s.attrs ts))
  | [], _, _ => rfl
  | t :: ts, h, hp => by
      have hpath := path_child (o := o) hs hlt htop hp h.1
      rw [shownAll, Rose.mapAll, Rose.shownAll, Simple.treeLinesAll, List.filterMap_append,
        filterMap_line?_shown hs hlt htop t h.2.1 (hp.tail h.1) hpath,
        filterMap_line?_shownAll hs hlt htop ts h.2.2 hp]

end

/-- The tree that a rendering walks over hangs together, and starts at its node. -/
theorem hangs_orderedSubtree_of_subtree? {r : Rose NodeId} (hr : s.subtree? k = some r) :
    Hangs s (s.orderedSubtree k) ∧ (s.orderedSubtree k).label = k := by
  obtain ⟨rfl, htraces⟩ := traces_of_subtree? hr
  rw [orderedSubtree, subtree_eq hr, Rose.label_sortBy]
  exact ⟨(hangs_of_traces r htraces).sortBy _ r, rfl⟩

theorem hangs_orderedSubtree (hs : s.Linked) (hlt : top < s.nodes.size)
    (htop : s.parent? top = none) (hk : ReflTransGen s.Owns top k) :
    Hangs s (s.orderedSubtree k) ∧ (s.orderedSubtree k).label = k := by
  obtain ⟨r, hr⟩ := hs.exists_subtree? hlt (hs.not_transGen_of_parent?_none htop)
  obtain ⟨q, hq⟩ := exists_subtree?_of_reaches hr hk
  exact hangs_orderedSubtree_of_subtree? hq

/-- The lines of a node are those of the tree that is shown below it, under the path of its
parent. -/
theorem lines_eq (hs : s.Linked) (hlt : top < s.nodes.size) (htop : s.parent? top = none)
    (hk : ReflTransGen s.Owns top k) (hc : c ∈ s.children k) : Simple.lines s o c =
      (Simple.treeLines o (Simple.path s o k) (s.shownTree o c)).filter (· ≠ "") := by
  obtain ⟨hhangs, hlabel⟩ := hangs_orderedSubtree hs hlt htop (hk.tail hc)
  have hpath := path_child (o := o) hs hlt htop hk hc
  rw [← hlabel] at hpath
  rw [Simple.lines, Simple.shown, filterMap_line?_shown hs hlt htop _ hhangs ?_ hpath]
  · rw [shownTree, map_attrs_orderedSubtree]
  · rw [hlabel]
    exact hk.tail hc

end Schema

end TypeOutline
