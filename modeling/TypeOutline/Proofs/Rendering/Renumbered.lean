import TypeOutline.Proofs.Rendering.Ways
import TypeOutline.Proofs.Arena.Edits

/-!
# Rendering a renumbered schema

`Moves s t P f` says that the nodes `P` of `s`, out of which no link
leads, stand in `t` under the ids that `f` gives them, with their links
renumbered and nothing else changed. A renumbering is one case, nodes that
were added behind all others are another. Everything that is read off a
schema starts at a node and follows links, so what is read at `f k` in `t`
is what was read at `k` in `s`: the tree below the node and its order, the
way up from it, and with these its lines in every dialect
(`Moves.elementLines_eq`).
-/

namespace TypeOutline

open Relation (ReflTransGen TransGen)

/-- The node with other ids in its links. -/
def Node.relink (f : NodeId → NodeId) (n : Node) : Node :=
  { n with id := f n.id, parent := n.parent.map f, children := n.children.map f }

/-- The nodes that a dialect leaves out of its list, and all below them. -/
def Dialect.hides : Dialect → Attributes → Bool
  | .simple => fun _ => false
  | .json => JsonPath.hidden
  | .openApi => OpenApi.hidden

namespace Schema

variable {s t : Schema} {P : NodeId → Prop} {f : NodeId → NodeId}

/-- The nodes `P` of `s` stand in `t` under other ids. No link leads out of `P`, and `t` is large
enough to find the ends of what is found in `s`. -/
structure Moves (s t : Schema) (P : NodeId → Prop) (f : NodeId → NodeId) : Prop where
  node?_eq : ∀ {k}, P k → t.node? (f k) = (s.node? k).map (Node.relink f)
  child : ∀ {p c}, P p → c ∈ s.children p → P c
  parent : ∀ {p c}, P c → s.parent? c = some p → P p
  height_le : ∀ {k r}, P k → s.subtree? k = some r → r.height ≤ t.nodes.size + 1
  length_le : ∀ {k stops ns}, P k → s.lineage? stops k = some ns → ns.length ≤ t.nodes.size + 1

/-! ## The way up -/

/-- The nodes from a node upwards, to the first that `stops` accepts or that has no parent. -/
inductive Ascends (s : Schema) (stops : Attributes → Bool) : NodeId → List Node → Prop
  | last {k : NodeId} {n : Node} (hn : s.node? k = some n)
      (h : stops n.toAttributes = true ∨ n.parent = none) : Ascends s stops k [n]
  | up {k p : NodeId} {n : Node} {ns : List Node} (hn : s.node? k = some n)
      (h : stops n.toAttributes = false) (hp : n.parent = some p) (hns : Ascends s stops p ns) :
      Ascends s stops k (n :: ns)

section Ascent

variable {stops : Attributes → Bool} {k top : NodeId} {ks : List NodeId} {ns : List Node}

theorem lineageWithin?_of_ascends (h : Ascends s stops k ns) : ∀ {depth : Nat},
    ns.length ≤ depth → s.lineageWithin? stops depth k = some ns := by
  induction h with
  | @last k n hn h =>
      intro depth hdepth
      obtain ⟨depth, rfl⟩ := Nat.exists_eq_add_of_le' hdepth
      simp only [List.length_singleton, lineageWithin?, hn, Option.bind_eq_bind, Option.bind_some]
      rcases h with h | h
      · exact if_pos h
      · rw [h]
        exact ite_self _
  | @up k p n ns hn h hp _ ih =>
      intro depth hdepth
      obtain ⟨depth, rfl⟩ :=
        Nat.exists_eq_add_of_le' (Nat.le_trans (Nat.succ_le_succ (Nat.zero_le _)) hdepth)
      simp only [lineageWithin?, hn, Option.bind_eq_bind, Option.bind_some, h, hp,
        ih (Nat.le_of_succ_le_succ hdepth)]
      rfl

theorem ascends_of_lineageWithin? : ∀ {depth : Nat} {k : NodeId} {ns : List Node},
    s.lineageWithin? stops depth k = some ns → Ascends s stops k ns ∧ ns.length ≤ depth
  | 0, _, _, h => nomatch h
  | depth + 1, k, ns, h => by
      rw [lineageWithin?] at h
      obtain ⟨n, hn, h⟩ := Option.bind_eq_some_iff.mp h
      cases hstop : stops n.toAttributes with
      | true =>
          rw [if_pos hstop] at h
          obtain rfl := Option.some.inj h
          exact ⟨.last hn (.inl hstop), Nat.succ_le_succ (Nat.zero_le _)⟩
      | false =>
          rw [if_neg (ne_true_of_eq_false hstop)] at h
          cases hp : n.parent with
          | none =>
              rw [hp] at h
              obtain rfl := Option.some.inj h
              exact ⟨.last hn (.inr hp), Nat.succ_le_succ (Nat.zero_le _)⟩
          | some p =>
              rw [hp] at h
              obtain ⟨ns', hns', h⟩ := Option.bind_eq_some_iff.mp h
              obtain rfl := Option.some.inj h
              obtain ⟨hrest, hlength⟩ := ascends_of_lineageWithin? hns'
              exact ⟨.up hn hstop hp hrest, Nat.succ_le_succ hlength⟩

/-- The way up is found if it is no longer than the search is deep. -/
theorem lineage?_eq_some_iff : s.lineage? stops k = some ns ↔
    Ascends s stops k ns ∧ ns.length ≤ s.nodes.size + 1 :=
  ⟨ascends_of_lineageWithin?, fun h => lineageWithin?_of_ascends h.1 h.2⟩

/-- A node below a top has a way up, no longer than the way down to it. -/
theorem exists_ascends_of_descends (hs : s.Linked) (hlt : top < s.nodes.size)
    (htop : s.parent? top = none) (stops : Attributes → Bool) (h : Descends s top k ks) :
    ∃ ns, Ascends s stops k ns ∧ ns.length ≤ ks.length := by
  induction h with
  | top =>
      have hparent := (parent_nodeOf hlt).trans htop
      exact ⟨[s.nodeOf top], .last (node?_eq_nodeOf hlt) (.inr hparent), Nat.le_refl 1⟩
  | @child p c ks hp hc ih =>
      have hnode := node?_eq_nodeOf (hs.lt_size_of_mem hc)
      have hparent := (parent_nodeOf (hs.lt_size_of_mem hc)).trans (hs.mem_children_iff.mp hc)
      cases hstop : stops (s.nodeOf c).toAttributes with
      | true => exact ⟨_, .last hnode (.inl hstop), Nat.succ_le_succ (Nat.zero_le _)⟩
      | false =>
          obtain ⟨ns, hns, hlength⟩ := ih
          exact ⟨_, .up hnode hstop hparent hns, Nat.succ_le_succ hlength⟩

theorem exists_lineage?_of_reaches (hs : s.Linked) (hlt : top < s.nodes.size)
    (htop : s.parent? top = none) (stops : Attributes → Bool) (h : ReflTransGen s.Owns top k) :
    ∃ ns, s.lineage? stops k = some ns := by
  obtain ⟨ks, hks⟩ := exists_descends h
  obtain ⟨ns, hns, hlength⟩ := exists_ascends_of_descends hs hlt htop stops hks
  have hle := hks.length_le hs hlt (hs.not_transGen_of_parent?_none htop)
  exact ⟨ns, lineage?_eq_some_iff.mpr ⟨hns, Nat.le_succ_of_le (Nat.le_trans hlength hle)⟩⟩

end Ascent

/-! ## Lists of nodes -/

/-- The line of a node in the dialects that list nodes by their paths. -/
def line? (s : Schema) (d : Dialect) (o : RenderOptions) (id : NodeId) : Option String :=
  match d with
  | .simple => Simple.line? s o id
  | .json => JsonPath.line? s o id
  | .openApi => none

/-- The node has a line, but its path leaves the arena. -/
def pathless (s : Schema) (d : Dialect) (id : NodeId) : Bool :=
  !(s.attrs id).isRoot && s.pathFaults d id

section Listing

variable {d : Dialect} {o : RenderOptions} {url : Option String} {k : NodeId}

theorem line?_of_isRoot (h : (s.attrs k).isRoot = true) : s.line? d o k = none := by
  cases d with
  | simple => exact if_pos h
  | json => exact if_pos h
  | openApi => rfl

theorem elementLines_eq_filter (hd : d ≠ .openApi) : s.elementLines d o url k =
    ((s.shown o d.hides (s.orderedSubtree k)).filterMap (s.line? d o)).filter (· ≠ "") := by
  cases d with
  | simple => rfl
  | json => rfl
  | openApi => exact absurd rfl hd

theorem elementFaults_eq_any (hd : d ≠ .openApi) : s.elementFaults d o url k =
    (!s.has k || (s.shown o d.hides (s.orderedSubtree k)).any (s.pathless d)) := by
  cases d with
  | simple => rfl
  | json => rfl
  | openApi => exact absurd rfl hd

/-- Below a top every path can be made. -/
theorem Linked.elementFaults_eq_false (hs : s.Linked) {top : NodeId} (hlt : top < s.nodes.size)
    (htop : s.parent? top = none) (hk : ReflTransGen s.Owns top k) (hd : d ≠ .openApi) :
    s.elementFaults d o url k = false := by
  have hreached : ∀ {c}, ReflTransGen s.Owns top c → c < s.nodes.size := by
    intro c hc
    obtain ⟨ks, hks⟩ := exists_descends hc
    cases hks with
    | top => exact hlt
    | child _ hc => exact hs.lt_size_of_mem hc
  have hpath : ∀ {c}, ReflTransGen s.Owns top c → s.pathFaults d c = false := by
    intro c hc
    have hup := fun stops => exists_lineage?_of_reaches hs hlt htop stops hc
    cases d with
    | simple => obtain ⟨ns, hns⟩ := hup fun _ => false; rw [pathFaults, hns]; rfl
    | json => obtain ⟨ns, hns⟩ := hup (·.isRoot); rw [pathFaults, hns]; rfl
    | openApi => exact absurd rfl hd
  obtain ⟨hangs, hlabel⟩ := hangs_orderedSubtree hs hlt htop hk
  rw [elementFaults_eq_any hd, has_of_lt (hreached hk), Bool.not_true, Bool.false_or,
    List.any_eq_false]
  intro c hc
  have hbelow := reaches_of_mem_shown _ hangs hc
  rw [hlabel] at hbelow
  rw [pathless, hpath (hk.trans hbelow), Bool.and_false]
  decide

end Listing

namespace Moves

/-! ## Nodes and their trees -/

section Trees

variable {k : NodeId} {r : Rose NodeId}

theorem attrs_eq (h : Moves s t P f) (hk : P k) : t.attrs (f k) = s.attrs k := by
  rw [attrs, h.node?_eq hk, attrs]
  cases s.node? k <;> rfl

theorem children_eq (h : Moves s t P f) (hk : P k) :
    t.children (f k) = (s.children k).map f := by
  rw [children, h.node?_eq hk, children]
  cases s.node? k <;> rfl

theorem has_eq (h : Moves s t P f) (hk : P k) : t.has (f k) = s.has k := by
  have hiff : f k < t.nodes.size ↔ k < s.nodes.size := by
    rw [lt_size_iff, lt_size_iff, h.node?_eq hk]
    simp
  exact decide_eq_decide.mpr hiff

theorem of_reaches (h : Moves s t P f) {j : NodeId} (hk : P k) (hj : ReflTransGen s.Owns k j) :
    P j := by
  induction hj with
  | refl => exact hk
  | tail _ hstep ih => exact h.child ih hstep

theorem subtree?_eq (h : Moves s t P f) (hk : P k) (hr : s.subtree? k = some r) :
    t.subtree? (f k) = some (r.map f) := by
  have hmem := fun x (hx : x ∈ r.preorder) => h.of_reaches hk ((mem_preorder_iff hr).mp hx)
  have hheight := h.height_le hk hr
  obtain ⟨rfl, htraces⟩ := traces_of_subtree? hr
  have hmoved : Traces t (r.map f) := htraces.map fun x hx => h.children_eq (hmem x hx)
  rw [← Rose.height_map f] at hheight
  rw [← Rose.label_map f]
  exact subtree?_of_traces hmoved hheight

theorem tree_eq (h : Moves s t P f) (hk : P k) (hr : s.subtree? k = some r) :
    t.tree (f k) = s.tree k := by
  rw [tree_eq_of_subtree? (h.subtree?_eq hk hr), tree_eq_of_subtree? hr]
  exact Rose.map_map_of_eq r fun x hx =>
    h.attrs_eq (h.of_reaches hk ((mem_preorder_iff hr).mp hx))

theorem sortedChildren_eq (h : Moves s t P f) (hk : P k) :
    t.sortedChildren (f k) = (s.sortedChildren k).map f := by
  rw [sortedChildren, sortedChildren, h.children_eq hk, List.map_mergeSort]
  intro a ha b hb
  rw [h.attrs_eq (h.child hk ha), h.attrs_eq (h.child hk hb)]

theorem orderedSubtree_eq (h : Moves s t P f) (hk : P k) (hr : s.subtree? k = some r) :
    t.orderedSubtree (f k) = (s.orderedSubtree k).map f := by
  have hattrs : ∀ x ∈ r.preorder, t.attrs (f x) = s.attrs x := fun x hx =>
    h.attrs_eq (h.of_reaches hk ((mem_preorder_iff hr).mp hx))
  rw [orderedSubtree, orderedSubtree, subtree_eq (h.subtree?_eq hk hr), subtree_eq hr]
  refine (Rose.map_sortBy r fun a ha b hb => ?_).symm
  rw [hattrs a ha, hattrs b hb]

end Trees

/-! ## What is listed -/

section Listed

variable {o : RenderOptions} {hidden : Attributes → Bool}

mutual

theorem shown_map (h : Moves s t P f) : (u : Rose NodeId) → Hangs s u → P u.label →
    t.shown o hidden (u.map f) = (s.shown o hidden u).map f
  | .node id us, hangs, hid => by
      have hid : P id := hid
      rw [Rose.map, shown, shown, h.attrs_eq hid]
      split
      · rfl
      · split
        · rw [List.map_cons, shownAll_mapAll h us hangs hid]
        · rfl

theorem shownAll_mapAll (h : Moves s t P f) {p : NodeId} : (us : List (Rose NodeId)) →
    HangsAll s p us → P p →
    t.shownAll o hidden (Rose.mapAll f us) = (s.shownAll o hidden us).map f
  | [], _, _ => rfl
  | u :: us, hangs, hp => by
      rw [Rose.mapAll, shownAll, shownAll, List.map_append,
        shown_map h u hangs.2.1 (h.child hp hangs.1), shownAll_mapAll h us hangs.2.2 hp]

end

end Listed

/-! ## Paths -/

section Paths

variable {k : NodeId} {o : RenderOptions} {d : Dialect} {stops : Attributes → Bool}

theorem ascends_map (h : Moves s t P f) {ns : List Node} (hns : Ascends s stops k ns) :
    P k → Ascends t stops (f k) (ns.map (Node.relink f)) := by
  induction hns with
  | @last k n hn hlast =>
      intro hk
      refine .last (by rw [h.node?_eq hk, hn]; rfl) (hlast.imp_right fun hp => ?_)
      rw [Node.relink, hp]
      rfl
  | @up k p n ns hn hstop hp _ ih =>
      intro hk
      have hparent : s.parent? k = some p := by rw [parent?, hn]; exact hp
      have hnode : (n.relink f).parent = some (f p) := by rw [Node.relink, hp]; rfl
      exact .up (by rw [h.node?_eq hk, hn]; rfl) hstop hnode (ih (h.parent hk hparent))

/-- The way up passes the same nodes. -/
theorem lineage?_eq (h : Moves s t P f) (hk : P k) {ns : List Node}
    (hns : s.lineage? stops k = some ns) :
    t.lineage? stops (f k) = some (ns.map (Node.relink f)) := by
  have hlength := h.length_le hk hns
  refine lineage?_eq_some_iff.mpr ⟨h.ascends_map (lineage?_eq_some_iff.mp hns).1 hk, ?_⟩
  rwa [List.length_map]

theorem lineage_eq (h : Moves s t P f) (hk : P k) (hns : (s.lineage? stops k).isNone = false) :
    t.lineage stops (f k) = s.lineage stops k ∧ (t.lineage? stops (f k)).isNone = false := by
  cases hfound : s.lineage? stops k with
  | none =>
      rw [hfound] at hns
      cases hns
  | some ns =>
      rw [lineage, lineage, h.lineage?_eq hk hfound, hfound]
      exact ⟨by simp [Node.relink, Function.comp_def], rfl⟩

/-- A path that can be made is the same one. -/
theorem path_eq (h : Moves s t P f) (hk : P k) (hfault : s.pathFaults d k = false) :
    t.path d o (f k) = s.path d o k ∧ t.pathFaults d (f k) = false := by
  cases d with
  | simple =>
      obtain ⟨hline, hsome⟩ := h.lineage_eq hk hfault
      refine ⟨?_, hsome⟩
      rw [path, path, Simple.path, Simple.path, hline]
  | json =>
      obtain ⟨hline, hsome⟩ := h.lineage_eq hk hfault
      refine ⟨?_, hsome⟩
      rw [path, path, JsonPath.path, JsonPath.path, hline]
  | openApi =>
      refine ⟨rfl, ?_⟩
      rw [pathFaults, h.has_eq hk]
      exact hfault

end Paths

/-! ## Lines -/

section Lines

variable {k : NodeId} {r : Rose NodeId} {o : RenderOptions} {d : Dialect} {url : Option String}

theorem shown_eq (h : Moves s t P f) (hk : P k) (hr : s.subtree? k = some r)
    (hidden : Attributes → Bool) : t.shown o hidden (t.orderedSubtree (f k)) =
      (s.shown o hidden (s.orderedSubtree k)).map f := by
  obtain ⟨hangs, hlabel⟩ := hangs_orderedSubtree_of_subtree? hr
  rw [h.orderedSubtree_eq hk hr]
  exact h.shown_map _ hangs (hlabel.symm ▸ hk)

theorem of_mem_shown (h : Moves s t P f) (hk : P k) (hr : s.subtree? k = some r)
    {hidden : Attributes → Bool} {c : NodeId}
    (hc : c ∈ s.shown o hidden (s.orderedSubtree k)) : P c := by
  obtain ⟨hangs, hlabel⟩ := hangs_orderedSubtree_of_subtree? hr
  have hreach := reaches_of_mem_shown _ hangs hc
  rw [hlabel] at hreach
  exact h.of_reaches hk hreach

/-- The line of a node is made of its path and what it says. -/
theorem line?_eq (h : Moves s t P f) (hk : P k) (hgood : s.pathless d k = false) :
    t.line? d o (f k) = s.line? d o k ∧ t.pathless d (f k) = false := by
  have hattrs := h.attrs_eq hk
  rw [pathless, hattrs]
  cases hroot : (s.attrs k).isRoot with
  | true =>
      refine ⟨?_, rfl⟩
      rw [line?_of_isRoot (hattrs ▸ hroot), line?_of_isRoot hroot]
  | false =>
      rw [pathless, hroot] at hgood
      obtain ⟨hpath, hfault⟩ := h.path_eq (o := o) hk hgood
      refine ⟨?_, hfault⟩
      cases d with
      | simple =>
          rw [line?, line?, Simple.line?, Simple.line?, hattrs]
          rw [path, path] at hpath
          rw [hpath]
      | json =>
          rw [line?, line?, JsonPath.line?, JsonPath.line?, hattrs]
          rw [path, path] at hpath
          rw [hpath]
      | openApi => rfl

/-- The block of a node is made of the tree below it. -/
theorem blockOf_eq (h : Moves s t P f) (hk : P k) (hr : s.subtree? k = some r) :
    OpenApi.blockOf t o url (f k) = OpenApi.blockOf s o url k := by
  rw [OpenApi.blockOf_eq_treeBlock, OpenApi.blockOf_eq_treeBlock, h.tree_eq hk hr]

/-- What is shown of a node is the same in every dialect, whenever it can be shown. OpenAPI blocks
are shown without paths, so only their indents may fail. -/
theorem elementLines_eq (h : Moves s t P f) (hk : P k) (hr : s.subtree? k = some r)
    (hgood : d = .openApi ∨ s.elementFaults d o url k = false) :
    t.elementLines d o url (f k) = s.elementLines d o url k
      ∧ t.elementFaults d o url (f k) = s.elementFaults d o url k := by
  by_cases hd : d = .openApi
  · subst hd
    rw [elementLines, elementLines, elementFaults, elementFaults, h.has_eq hk, OpenApi.lines,
      OpenApi.lines, h.blockOf_eq hk hr]
    exact ⟨rfl, rfl⟩
  · have hfault := hgood.resolve_left hd
    rw [elementLines_eq_filter hd, elementLines_eq_filter hd, elementFaults_eq_any hd,
      h.has_eq hk, hfault, h.shown_eq hk hr, List.filterMap_map, List.any_map]
    rw [elementFaults_eq_any hd] at hfault
    obtain ⟨hhas, hall⟩ := Bool.or_eq_false_iff.mp hfault
    have heach : ∀ c ∈ s.shown o d.hides (s.orderedSubtree k),
        t.line? d o (f c) = s.line? d o c ∧ t.pathless d (f c) = false := fun c hc =>
      h.line?_eq (h.of_mem_shown hk hr hc) (by simpa using List.any_eq_false.mp hall c hc)
    constructor
    · exact congrArg _ (List.filterMap_congr fun c hc => (heach c hc).1)
    · rw [hhas, Bool.false_or, List.any_eq_false]
      intro c hc
      rw [Function.comp_apply, (heach c hc).2]
      decide

end Lines

/-! ## Schemas -/

section Schemas

theorem elementLines_eq_of_reaches (h : Moves s t P f) (hs : s.Linked) {top : NodeId}
    (hlt : top < s.nodes.size) (htop : s.parent? top = none) {k : NodeId}
    (hk : ReflTransGen s.Owns top k) (hP : P k) (d : Dialect) (o : RenderOptions)
    (url : Option String) : t.elementLines d o url (f k) = s.elementLines d o url k
      ∧ t.elementFaults d o url (f k) = s.elementFaults d o url k := by
  obtain ⟨r, hr⟩ := hs.exists_subtree? hlt (hs.not_transGen_of_parent?_none htop)
  obtain ⟨q, hq⟩ := exists_subtree?_of_reaches hr hk
  exact h.elementLines_eq hP hq
    (or_iff_not_imp_left.mpr fun hd => hs.elementFaults_eq_false hlt htop hk hd)

theorem isEmpty_children_eq (h : Moves s t P f) {k : NodeId} (hk : P k) :
    (t.children (f k)).isEmpty = (s.children k).isEmpty := by
  rw [h.children_eq hk, List.isEmpty_map]

/-- What is read off the tops of a schema, both trees with their sizes, the dump and the lines of
every dialect, is the same. -/
theorem schema_eq (h : Moves s t P f) (hs : s.Linked) (hroot : P s.root) (hrefs : P s.typeRefs)
    (hroot' : t.root = f s.root) (hrefs' : t.typeRefs = f s.typeRefs) :
    t.size = s.size ∧ t.isEmpty = s.isEmpty ∧ t.dump = s.dump
      ∧ ∀ d o url, t.lines d o url = s.lines d o url
        ∧ t.linesFault d o url = s.linesFault d o url := by
  obtain ⟨r, q, hr, hq⟩ := hs.exists_trees
  refine ⟨?_, ?_, ?_, fun d o url => ?_⟩
  · rw [size, size, preorder, preorder, preorder, preorder, hroot', hrefs',
      subtree_eq (h.subtree?_eq hroot hr), subtree_eq (h.subtree?_eq hrefs hq), subtree_eq hr,
      subtree_eq hq, Rose.preorder_map, Rose.preorder_map, List.length_map, List.length_map]
  · rw [isEmpty, isEmpty, hroot', hrefs', h.isEmpty_children_eq hroot, h.isEmpty_children_eq hrefs]
  · rw [dump, dump, hroot', hrefs', h.tree_eq hroot hr, h.tree_eq hrefs hq]
  · obtain ⟨hlines, hfault⟩ := h.elementLines_eq_of_reaches hs hs.root_lt hs.parent?_root .refl
      hroot d o url
    obtain ⟨hlines', hfault'⟩ := h.elementLines_eq_of_reaches hs hs.typeRefs_lt
      hs.parent?_typeRefs .refl hrefs d o url
    rw [lines, lines, linesFault, linesFault, treeLines, treeLines, treeLines, treeLines, hroot',
      hrefs', h.isEmpty_children_eq hroot, h.isEmpty_children_eq hrefs, hlines, hlines', hfault,
      hfault']
    exact ⟨rfl, rfl⟩

end Schemas

end Moves

end Schema

end TypeOutline
