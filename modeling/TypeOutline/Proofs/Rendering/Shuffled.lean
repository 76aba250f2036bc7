import TypeOutline.Proofs.Arena.Operations
import TypeOutline.Proofs.Rendering.Renderer
import TypeOutline.Proofs.Rendering.TreeLines

/-!
# The order of children

A rendering shows children in the order of their generic names, so where
these are distinct it does not matter in which order the children were
put there: two trees that differ in such orders alone are one tree once
they are in the order of names (`Rose.Shuffled.ordered_eq`), and the lines
of a schema are made of its trees in that order. Nothing is asked of the
other attributes, in particular not that the names of the JSON dialect
are in the order of the generic ones.
-/

namespace TypeOutline

namespace Rose

/-- The trees differ at most in the order of children with distinct names. -/
inductive Shuffled : Rose Attributes → Rose Attributes → Prop
  | same (a : Attributes) {ts us : List (Rose Attributes)} : List.Forall₂ Shuffled ts us →
      Shuffled (.node a ts) (.node a us)
  | permuted (a : Attributes) {ts us vs : List (Rose Attributes)} :
      (ts.map (·.label.name)).Nodup → ts.Perm us → List.Forall₂ Shuffled us vs →
        Shuffled (.node a ts) (.node a vs)

/-- Trees whose names are distinct come in one order, however they were put there. -/
theorem orderedAll_eq_of_perm {ts us : List (Rose Attributes)}
    (hnames : (ts.map (·.label.name)).Nodup) (h : ts.Perm us) :
    orderedAll Attributes.name ts = orderedAll Attributes.name us := by
  refine mergeSort_eq_of_perm (fun t u v htu huv => ?_) (fun t u => ?_)
    (fun x hx y hy hxy hyx => ?_) (h.map _)
  · exact decide_eq_true (String.le_trans (of_decide_eq_true htu) (of_decide_eq_true huv))
  · rw [Bool.or_eq_true, decide_eq_true_eq, decide_eq_true_eq]
    exact String.le_total _ _
  · obtain ⟨t, ht, rfl⟩ := List.mem_map.mp hx
    obtain ⟨u, hu, rfl⟩ := List.mem_map.mp hy
    rw [label_ordered, label_ordered] at hxy hyx
    have hname := String.le_antisymm (of_decide_eq_true hxy) (of_decide_eq_true hyx)
    rw [List.inj_on_of_nodup_map hnames ht hu hname]

theorem sizeOf_lt_of_mem_children {a : Attributes} {t : Rose Attributes}
    {ts : List (Rose Attributes)} (h : t ∈ ts) : sizeOf t < sizeOf (node a ts) := by
  have hlt := List.sizeOf_lt_of_mem h
  rw [node.sizeOf_spec]
  omega

/-- In the order of names shuffled trees are one tree. -/
theorem Shuffled.ordered_eq {t u : Rose Attributes} (h : t.Shuffled u) :
    t.ordered Attributes.name = u.ordered Attributes.name := by
  cases h with
  | @same a ts us h =>
      have hmap : ts.map (ordered Attributes.name) = us.map (ordered Attributes.name) :=
        map_eq_of_forall₂ h fun t ht u htu => by
          have hlt := sizeOf_lt_of_mem_children (a := a) ht
          exact htu.ordered_eq
      rw [ordered_node, ordered_node, orderedAll, orderedAll, hmap]
  | @permuted a ts us vs hnames hperm h =>
      have hmap : us.map (ordered Attributes.name) = vs.map (ordered Attributes.name) :=
        map_eq_of_forall₂ h fun u hu v huv => by
          have hlt := sizeOf_lt_of_mem_children (a := a) (hperm.mem_iff.mpr hu)
          exact huv.ordered_eq
      rw [ordered_node, ordered_node, orderedAll_eq_of_perm hnames hperm, orderedAll, orderedAll,
        hmap]
termination_by sizeOf t
decreasing_by all_goals exact hlt

end Rose

/-! ## Lines in the order of names -/

section Ordered

variable {t u : Rose Attributes} (h : t.ordered Attributes.name = u.ordered Attributes.name)
  (d : Dialect) (o : RenderOptions) (url : Option String)

include h

theorem shownWays_eq_of_ordered : t.shownWays o = u.shownWays o := by
  rw [Rose.shownWays, h]
  rfl

theorem treeLines_eq_of_ordered : d.treeLines o url t = d.treeLines o url u := by
  have hways := shownWays_eq_of_ordered h o
  cases d with
  | simple => rw [Dialect.treeLines, Dialect.treeLines, Simple.linesOf, Simple.linesOf, hways]
  | json =>
      rw [Dialect.treeLines, Dialect.treeLines, JsonPath.listedLines, JsonPath.listedLines, hways]
  | openApi => rw [Dialect.treeLines, Dialect.treeLines, OpenApi.linesOf, OpenApi.linesOf, h]

theorem treeFault_eq_of_ordered : d.treeFault o url t = d.treeFault o url u := by
  cases d with
  | openApi => rw [Dialect.treeFault, Dialect.treeFault, h]
  | _ => rfl

theorem isEmpty_children_eq_of_ordered : t.children.isEmpty = u.children.isEmpty := by
  have hchildren := congrArg (fun t => t.children.length) h
  rw [Rose.children_ordered, Rose.children_ordered, Rose.orderedAll, Rose.orderedAll,
    List.length_mergeSort, List.length_mergeSort, List.length_map, List.length_map] at hchildren
  rw [Bool.eq_iff_iff, List.isEmpty_iff_length_eq_zero, List.isEmpty_iff_length_eq_zero, hchildren]

theorem topLines_eq_of_ordered :
    d.topLines o url t = d.topLines o url u ∧ d.topFault o url t = d.topFault o url u := by
  rw [Dialect.topLines, Dialect.topLines, Dialect.topFault, Dialect.topFault,
    isEmpty_children_eq_of_ordered h, treeLines_eq_of_ordered h, treeFault_eq_of_ordered h]
  exact ⟨rfl, rfl⟩

end Ordered

/-! ## The main result -/

/-- Schemas that keep the ownership law and whose trees differ at most in the order of children with
distinct names have the same lines in every dialect, and the lines of one can be made exactly if
those of the other can. A renderer at work gives the same result for both. -/
theorem lines_eq_of_shuffled {s s' : Schema} (hs : s.Linked) (hs' : s'.Linked)
    (hroot : (s.tree s.root).Shuffled (s'.tree s'.root))
    (hrefs : (s.tree s.typeRefs).Shuffled (s'.tree s'.typeRefs)) :
    (∀ d o url, s.lines d o url = s'.lines d o url
        ∧ s.linesFault d o url = s'.linesFault d o url)
      ∧ ∀ r : OpenApi.Renderer, r.render? s = r.render? s' := by
  have hall : ∀ d o url, s.lines d o url = s'.lines d o url
      ∧ s.linesFault d o url = s'.linesFault d o url := by
    intro d o url
    obtain ⟨hlines, hfault⟩ := hs.lines_eq d o url
    obtain ⟨hlines', hfault'⟩ := hs'.lines_eq d o url
    obtain ⟨hvalue, hvalueFault⟩ := topLines_eq_of_ordered hroot.ordered_eq d o url
    obtain ⟨hdefinitions, hdefinitionsFault⟩ := topLines_eq_of_ordered hrefs.ordered_eq d o url
    rw [hlines, hlines', hfault, hfault', Dialect.linesOf, Dialect.linesOf, Dialect.linesFaultOf,
      Dialect.linesFaultOf, hvalue, hvalueFault, hdefinitions, hdefinitionsFault]
    exact ⟨rfl, rfl⟩
  refine ⟨hall, fun r => ?_⟩
  obtain ⟨hlines, hfault⟩ := hall .openApi r.options r.url
  rw [r.render?_eq, r.render?_eq, hlines, hfault]

/-- A record of members, put there in the order in which they are given. -/
def recordOf (members : List Attributes) : Schema :=
  members.foldl (fun s a => (s.newChild 2 a.name).modifyAttrs s.nextId fun _ => a)
    ((Schema.empty.newChild 0 "").modifyAttrs 2 fun a => { a with generic := .struct })

theorem linked_recordOf (members : List Attributes) : (recordOf members).Linked := by
  have hstep : ∀ (members : List Attributes) (s : Schema), s.Linked → 2 < s.nodes.size →
      (members.foldl (fun s a => (s.newChild 2 a.name).modifyAttrs s.nextId fun _ => a)
        s).Linked := by
    intro members
    induction members with
    | nil => exact fun s hs _ => hs
    | cons a members ih =>
        intro s hs hlt
        refine ih _ ((hs.newChild hlt a.name).modifyAttrs _ _) ?_
        rw [Schema.size_modifyAttrs, Schema.newChild, Schema.size_addChild, Schema.size_alloc]
        exact Nat.lt_succ_of_lt hlt
  exact hstep members _ ((Schema.sound_empty.toLinked.newChild (by decide) "").modifyAttrs 2 _)
    (by decide)

/-- Two members whose names in the JSON dialect are in the other order than their own. -/
def crossed : List Attributes :=
  [Attributes.modifyOverride { name := "A", generic := .integer } jsonDialect
      fun b => { b with name := "z" },
    { name := "B", generic := .string }]

theorem tree_recordOf_crossed : ∀ members ∈ [crossed, crossed.reverse],
    (recordOf members).tree 0 = .node rootTop
        [.node { name := "", generic := .struct } (members.map (.node · []))]
      ∧ (recordOf members).tree 1 = .node Schema.typeRefsTop [] := by
  have hvalue : ∀ {s : Schema}, s.subtree? 0 = some (.node 0 [.node 2 [.node 3 [], .node 4 []]]) →
      s.tree 0 = .node (s.attrs 0)
        [.node (s.attrs 2) ([s.attrs 3, s.attrs 4].map (.node · []))] := fun h => by
    rw [Schema.tree_eq_of_subtree? h]
    rfl
  have hdefinitions : ∀ {s : Schema}, s.subtree? 1 = some (.node 1 []) →
      s.tree 1 = .node (s.attrs 1) [] := fun h => by
    rw [Schema.tree_eq_of_subtree? h]
    rfl
  have hattrs : ∀ members ∈ [crossed, crossed.reverse], (recordOf members).attrs 0 = rootTop
      ∧ (recordOf members).attrs 1 = Schema.typeRefsTop
      ∧ (recordOf members).attrs 2 = { name := "", generic := .struct }
      ∧ [(recordOf members).attrs 3, (recordOf members).attrs 4] = members := by decide +kernel
  intro members hmembers
  obtain ⟨hroot, hrefs, hrecord, hall⟩ := hattrs members hmembers
  have hfound : (recordOf members).subtree? 0 = some (.node 0 [.node 2 [.node 3 [], .node 4 []]])
      ∧ (recordOf members).subtree? 1 = some (.node 1 []) := by
    simp only [List.mem_cons, List.not_mem_nil, or_false] at hmembers
    rcases hmembers with rfl | rfl <;> exact ⟨by rfl, by rfl⟩
  rw [hvalue hfound.1, hdefinitions hfound.2, hroot, hrefs, hrecord, hall]
  exact ⟨rfl, rfl⟩

theorem lines_eq_of_shuffled_crossed : (recordOf crossed).Linked
    ∧ (recordOf crossed.reverse).Linked
    ∧ ((recordOf crossed).tree 0).Shuffled ((recordOf crossed.reverse).tree 0)
    ∧ ((recordOf crossed).tree 1).Shuffled ((recordOf crossed.reverse).tree 1)
    ∧ (recordOf crossed).lines .json {} none = (recordOf crossed.reverse).lines .json {} none
    ∧ (recordOf crossed).lines .openApi {} (some "/data") =
      (recordOf crossed.reverse).lines .openApi {} (some "/data") := by
  have hs := linked_recordOf crossed
  have hs' := linked_recordOf crossed.reverse
  obtain ⟨hroot, hrefs⟩ := tree_recordOf_crossed _ List.mem_cons_self
  obtain ⟨hroot', hrefs'⟩ := tree_recordOf_crossed _ (List.mem_cons_of_mem _ List.mem_cons_self)
  have hvalue : ((recordOf crossed).tree 0).Shuffled ((recordOf crossed.reverse).tree 0) := by
    rw [hroot, hroot']
    exact .same _ (.cons (.permuted _ (by decide) (.swap ..)
      (.cons (.same _ .nil) (.cons (.same _ .nil) .nil))) .nil)
  have hdefinitions : ((recordOf crossed).tree 1).Shuffled ((recordOf crossed.reverse).tree 1) := by
    rw [hrefs, hrefs']
    exact .same _ .nil
  obtain ⟨hlines, -⟩ := lines_eq_of_shuffled hs hs' hvalue hdefinitions
  exact ⟨hs, hs', hvalue, hdefinitions, (hlines .json {} none).1, (hlines .openApi {} _).1⟩

end TypeOutline
