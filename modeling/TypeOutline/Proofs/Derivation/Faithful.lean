import TypeOutline.Proofs.Arena.Renumbering
import TypeOutline.Proofs.Derivation.Paths
import TypeOutline.Proofs.Derivation.Visiting

/-!
# Derivation is a plain recursion

The schema of a value has for `Root` the outline of the value and for
`TypeRefs` the definitions made of what the outline finished
(`rel_derive?`). So the tree of `Root` is found by a recursion over the
value alone, and the same holds of every visit on the way: what it leaves
below its node depends on the value, on the node, on being at the top and
on the set of names above.
-/

namespace TypeOutline

/-- The top of the tree of a value. -/
def rootTop : Attributes := { name := rootName, generic := .root }

namespace Schema

variable {s : Schema} {R : List (Rose Attributes)} {busy : Nat → Prop}

/-! ## From the first node to both trees -/

/-- The arena in which the walk over a value starts. -/
theorem ready_start : (empty.newChild empty.root "").Ready 2 { name := "" } true where
  sound := by
    have halloc := sound_empty.alloc { name := "" }
    exact halloc.attach (p := 0) (c := 2) (by decide) (by decide) rfl (by decide) (by decide)
  size_eq := rfl
  typeRefs_lt := by decide
  attrs_eq := rfl
  children_eq := rfl
  underRoot_eq := rfl

theorem busy_start : (empty.newChild empty.root "").Busy 2 (· < 3) where
  lt_size _ hk := hk
  self := by decide
  typeRefs := by decide

theorem holds_start : (empty.newChild empty.root "").Holds [] (· < 3) where
  attrs_eq := rfl
  shows := .nil

theorem Holds.exists_traces (h : s.Holds R busy) : ∃ rs, TracesAll s rs
    ∧ rs.map Rose.label = s.children s.typeRefs ∧ Rose.mapAll s.attrs rs = R
    ∧ ∀ r ∈ rs, r.label + r.height ≤ s.nodes.size := by
  have hrows := h.shows
  clear h
  generalize s.children s.typeRefs = cs at hrows
  induction hrows with
  | nil => exact ⟨[], trivial, rfl, rfl, fun r hr => absurd hr List.not_mem_nil⟩
  | cons hct _ ih =>
      obtain ⟨hi, hhi, ht, -⟩ := hct
      obtain ⟨r, hr, hlabel, hmap, hheight⟩ := ht.exists_traces
      obtain ⟨rs, hrs, hlabels, hmaps, hheights⟩ := ih
      refine ⟨r :: rs, ⟨hr, hrs⟩, ?_, ?_, fun q hq => ?_⟩
      · rw [List.map_cons, hlabel, hlabels]
      · rw [Rose.mapAll, hmap, hmaps]
      · rcases List.mem_cons.mp hq with rfl | hq
        · rw [hlabel]
          exact Nat.le_trans hheight hhi
        · exact hheights q hq

theorem Rose.heightAll_le {α : Type} {n : Nat} : ∀ {ts : List (Rose α)},
    (∀ t ∈ ts, t.height ≤ n) → Rose.heightAll ts ≤ n
  | [], _ => Nat.zero_le n
  | t :: _, h => Nat.max_le.mpr ⟨h t List.mem_cons_self,
      Rose.heightAll_le fun u hu => h u (List.mem_cons_of_mem t hu)⟩

/-- The tree of the definitions is found. -/
theorem Holds.subtree? (h : s.Holds R busy) : ∃ q, s.subtree? s.typeRefs = some q
    ∧ q.map s.attrs = .node typeRefsTop R := by
  obtain ⟨rs, hrs, hlabels, hmaps, hheights⟩ := h.exists_traces
  have hle : Rose.heightAll rs ≤ s.nodes.size :=
    Rose.heightAll_le fun r hr => Nat.le_trans (Nat.le_add_left ..) (hheights r hr)
  have htraces : Traces s (.node s.typeRefs rs) := ⟨hlabels.symm, hrs⟩
  refine ⟨_, subtree?_of_traces htraces (Nat.succ_le_succ hle), ?_⟩
  rw [Rose.map, hmaps, h.attrs_eq]

/-- The tree of the value is found below the top. -/
theorem Visited.root {t : Rose Attributes}
    (h : Visited (empty.newChild empty.root "") s 2 (· < 3) t R) :
    ∃ r, s.subtree? s.root = some r ∧ r.map s.attrs = .node rootTop [t] := by
  have hnode : s.node? 0 = (empty.newChild empty.root "").node? 0 :=
    h.grows.node?_eq 0 (by decide) (by decide)
  have hroot : s.root = 0 := h.grows.root_eq
  rw [hroot]
  have hsize : 0 < s.nodes.size := Nat.lt_of_lt_of_le (by decide) h.grows.size_le
  have hshows : Shows s 0 s.nodes.size 0 (.node rootTop [t]) := by
    refine ⟨Nat.le_refl 0, hsize, attrs_congr hnode, ?_⟩
    rw [children_congr hnode]
    exact ⟨s.nodes.size, h.shows.mono (by decide) (Nat.le_refl _), Nat.le_refl _⟩
  exact hshows.subtree? (Nat.le_refl _)

end Schema

/-! ## The two trees of a value -/

/-- The schema shows an outline. -/
structure Schema.Renders (s : Schema) (o : Outline) : Prop where
  root_eq : s.tree s.root = .node rootTop [o.tree]
  typeRefs_eq : s.tree s.typeRefs = .node typeRefsTop (recordAll [] o.finished)

variable {types : Types} {v : Value}

/-- The arena that the walk leaves shows the outline below its third node. -/
theorem rel_walk? (types : Types) (v : Value) :
    Option.Rel (fun s o => Schema.Visited (Schema.empty.newChild Schema.empty.root "") s 2 (· < 3)
      o.tree (recordAll [] o.finished)) (walk? types v)
      (outline types (v.depthBound types) (.start v)) := by
  have hnames : ∀ n, ({} : Names).contains n = true ↔ n ∈ (∅ : Finset String) := by
    intro n
    simp [Names.contains, Names.count]
  exact Schema.implements_visit types (v.depthBound types) hnames v Schema.ready_start
    Schema.busy_start Schema.holds_start

theorem rel_derive? (types : Types) (v : Value) :
    Option.Rel (fun s o => s.Linked ∧ s.Renders o) (derive? types v)
      (outline types (v.depthBound types) (.start v)) := by
  have hwalk := rel_walk? types v
  rw [derive?]
  generalize walk? types v = x at hwalk
  generalize outline types (v.depthBound types) (.start v) = y at hwalk
  cases hwalk with
  | none => exact .none
  | some hvisited =>
      obtain ⟨r, hr, hrtree⟩ := hvisited.root
      obtain ⟨q, hq, hqtree⟩ := hvisited.holds.subtree?
      obtain ⟨hcompact, hroot, hrefs⟩ := hvisited.sound.toLinked.compact?
      rw [Option.bind_some, hcompact]
      refine .some ⟨hvisited.sound.toLinked.compact, ?_, ?_⟩
      · rw [hroot, Schema.tree_eq_of_subtree? hr, hrtree]
      · rw [hrefs, Schema.tree_eq_of_subtree? hq, hqtree]

/-- The derivation of a value with an outline ends, and shows it. -/
theorem derive?_of_outlines {o : Outline} (h : Outlines types (.start v) o) :
    ∃ s, derive? types v = some s ∧ s.Renders o := by
  have hrel := rel_derive? types v
  rw [outline_depthBound h] at hrel
  generalize derive? types v = x at hrel
  cases hrel with
  | some hs => exact ⟨_, rfl, hs.2⟩

/-- A derivation that ends shows the outline of the value. -/
theorem exists_outlines_of_derive? {s : Schema} (h : derive? types v = some s) :
    ∃ o, Outlines types (.start v) o ∧ s.Renders o := by
  have hrel := rel_derive? types v
  rw [h] at hrel
  generalize hy : outline types (v.depthBound types) (.start v) = y at hrel
  cases hrel with
  | some hs => exact ⟨_, ⟨_, hy⟩, hs.2⟩

theorem linked_of_derive? {s : Schema} (h : derive? types v = some s) : s.Linked := by
  have hrel := rel_derive? types v
  rw [h] at hrel
  generalize outline types (v.depthBound types) (.start v) = y at hrel
  cases hrel with
  | some hs => exact hs.1

/-! ## One visit -/

/-- The walk, looking deep enough, leaves the tree on the node of the position, in whatever arena
it gets there. -/
def Site.Leaves (types : Types) (p : Site) (t : Rose Attributes) : Prop :=
  ∃ bound, ∀ {depth names s id R busy}, bound ≤ depth →
    (∀ n, names.contains n = true ↔ n ∈ p.above) → s.Ready id p.attrs p.top → s.Busy id busy →
      s.Holds R busy → ∃ s', Schema.visit types depth names id p.value s = some s' ∧ s'.tree id = t

theorem Outlines.leaves {p : Site} {o : Outline} (h : Outlines types p o) :
    p.Leaves types o.tree := by
  obtain ⟨bound, ho⟩ := h
  refine ⟨bound, fun {depth names s id R busy} hdepth hnames hready hbusy hholds => ?_⟩
  have hrel := Schema.implements_visit types depth hnames p.value hready hbusy hholds
  rw [outline_mono ho hdepth] at hrel
  generalize Schema.visit types depth names id p.value s = x at hrel
  cases hrel with
  | some hvisited => exact ⟨_, rfl, hvisited.shows.tree_eq (Nat.le_refl _)⟩

/-! ## Closed cycles -/

/-- The level declares a name that a level above it declares, and it is
neither of an unsupported kind nor out of place at the top. -/
def ClosesCycle (path : List Layer) (l : Layer) : Prop :=
  l.isUnsupported = false ∧ l.isMisplaced (path.all Layer.isWrapper) = false
    ∧ ∃ n, l.declares? = some n ∧ ∃ m ∈ path, m.declares? = some n

section Cycles

variable {path : List Layer} {p : Site} {l : Layer}

theorem exists_ruling_eq_cycle_iff (h : Reaches types (.start v) path p) :
    (∃ n, l.ruling p.top p.above = .cycle n) ↔ ClosesCycle path l := by
  have htop : p.top = path.all Layer.isWrapper := by
    rw [Bool.eq_iff_iff, top_iff h, List.all_eq_true]
    exact ⟨fun h => h.2, fun h => ⟨rfl, h⟩⟩
  have habove : ∀ n, n ∈ p.above ↔ ∃ m ∈ path, m.declares? = some n := by
    intro n
    rw [mem_above_iff h]
    exact ⟨fun h => h.elim (fun h => absurd h (Finset.notMem_empty n)) fun h => h, .inr⟩
  unfold ClosesCycle
  rw [← htop]
  constructor
  · rintro ⟨n, hn⟩
    obtain ⟨hkind, hplace, hname, hin⟩ := ruling_eq_cycle.mp hn
    exact ⟨hkind, hplace, n, hname, (habove n).mp hin⟩
  · rintro ⟨hkind, hplace, n, hname, hin⟩
    exact ⟨n, ruling_eq_cycle.mpr ⟨hkind, hplace, hname, (habove n).mpr hin⟩⟩

/-- No level but a wrapper takes over a closed cycle from its members. -/
theorem defect_label_of_content {a : Attributes} {shape : Shape Value} {top : Bool}
    {above : Finset String} {derive : Site → Option Outline} {o : Outline}
    (ha : a.defect ≠ some .cyclicalReference) (hwrap : shape.isWrapper = false)
    (ho : (shape.content a).outline derive top above = some o) :
    o.tree.label.defect ≠ some .cyclicalReference := by
  cases gives_outline ho with
  | leaf b _ hfits ho' =>
      subst ho'
      exact hfits.1 ha
  | same b v _ hfits _ => exact absurd (hfits.1.symm.trans hwrap) (by decide)
  | each _ _ _ _ hdefect _ _ _ => exact hdefect

theorem defect_label_iff {o : Outline} (ho : Outlines types p o)
    (hl : p.value.layer? types = some l) (hwrap : l.isWrapper = false)
    (hp : p.attrs.defect ≠ some .cyclicalReference) :
    o.tree.label.defect = some .cyclicalReference ↔ ∃ n, l.ruling p.top p.above = .cycle n := by
  obtain ⟨depth, ho⟩ := ho
  cases depth with
  | zero => cases ho
  | succ depth =>
      obtain ⟨l', hl', ⟨-, rfl⟩ | ⟨name, content, hr, hcontent, rfl⟩⟩ := outline_succ_cases ho
      · obtain rfl := Option.some.inj (hl.symm.trans hl')
        exact defect_head_eq_cyclical hp
      · obtain rfl := Option.some.inj (hl.symm.trans hl')
        rw [hr]
        have hhead : (p.attrs.head l.shape.kind (.enters name)).defect ≠
            some .cyclicalReference := by
          rw [defect_head_enters]
          exact hp
        have hne := defect_label_of_content hhead hwrap hcontent
        exact ⟨fun h => absurd h hne, fun ⟨_, h⟩ => nomatch h⟩

end Cycles

/-! ## The main result -/

/-- An engine, whatever it was used for before, derives the outline of a
value, and nothing if there is none. Every visit on the way leaves below
its node the outline of its position, in whatever arena it takes place
and whatever is defined already. A level is given a closed cycle exactly
if it declares what a level above it declares, wrappers included. -/
theorem derive?_eq_outline (e : Engine) (types : Types) (v : Value) :
    (∀ t, (∃ s, (e.derive? types v).1 = some s ∧ s.tree s.root = t)
        ↔ ∃ o, Outlines types (.start v) o ∧ t = .node rootTop [o.tree])
      ∧ (∀ depth names above s id a top R busy w,
        (∀ n, names.contains n = true ↔ n ∈ above) → s.Ready id a top → s.Busy id busy →
          s.Holds R busy →
          Option.Rel (fun s' o => s'.tree id = o.tree) (Schema.visit types depth names id w s)
            (outline types depth ⟨a, top, above, w⟩))
      ∧ ∀ path p l, Reaches types (.start v) path p → p.value.layer? types = some l →
        ((p.attrs.head l.shape.kind (l.ruling p.top p.above)).defect = some .cyclicalReference
            ↔ ClosesCycle path l)
          ∧ ∀ o, Outlines types p o → l.isWrapper = false →
            (o.tree.label.defect = some .cyclicalReference ↔ ClosesCycle path l) := by
  refine ⟨fun t => ⟨?_, ?_⟩, ?_, ?_⟩
  · rintro ⟨s, hs, rfl⟩
    obtain ⟨o, ho, hrenders⟩ := exists_outlines_of_derive? hs
    exact ⟨o, ho, hrenders.root_eq⟩
  · rintro ⟨o, ho, rfl⟩
    obtain ⟨s, hs, hrenders⟩ := derive?_of_outlines ho
    exact ⟨s, hs, hrenders.root_eq⟩
  · intro depth names above s id a top R busy w hnames hready hbusy hholds
    refine rel_imp (Schema.implements_visit types depth hnames w hready hbusy hholds) ?_
    exact fun s' o hvisited => hvisited.shows.tree_eq (Nat.le_refl _)
  · intro path p l hpath hl
    have hp := attrs_defect_ne hpath (fun h => nomatch h)
    rw [defect_head_eq_cyclical hp, exists_ruling_eq_cycle_iff hpath]
    refine ⟨Iff.rfl, fun o ho hwrap => ?_⟩
    rw [defect_label_iff ho hl hwrap hp, exists_ruling_eq_cycle_iff hpath]

/-- A recursive type: a node with an optional next one. -/
def chainTypes : Types :=
  ⟨[("Node", .layer (some "Node") (.record
    [{ name := "Next", value := .ofShape (.pointer none (.declared none "Node")) }]))], by decide⟩

/-- A node without a next one. -/
def chain : Value := .declared none "Node"

theorem derive?_eq_outline_chain : ∃ o, Outlines chainTypes (.start chain) o
    ∧ o.tree.preorder.map (·.defect) = [none, some .cyclicalReference] := by
  have hderive : (derive? chainTypes chain).map (fun s =>
      (s.tree s.root).preorder.map (·.defect)) = some [none, none, some .cyclicalReference] := by
    decide +kernel
  obtain ⟨s, hs, hdefects⟩ := Option.map_eq_some_iff.mp hderive
  obtain ⟨o, ho, ht⟩ := ((derive?_eq_outline {} chainTypes chain).1 _).mp ⟨s, hs, rfl⟩
  refine ⟨o, ho, ?_⟩
  rw [ht, Rose.preorder, List.map_cons, Rose.preorderAll, Rose.preorderAll,
    List.append_nil] at hdefects
  exact (List.cons.inj hdefects).2

end TypeOutline
