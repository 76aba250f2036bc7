import TypeOutline.Proofs.Derivation.Positions

/-!
# Date-times

A date-time is a leaf, whatever its own name is and whatever wrappers
stand on its node: the name is written on the node like that of any
level, and taken back when the date-time is recognized. But a name is
compared with those above it before the value is looked at. So
a date-time whose name is that of an enclosing type, or of a wrapper on
its own node, closes a cycle (`dateTime_of_reaches`). In both cases
a visit changes nothing but the attributes of the node, and nothing is
defined.
-/

namespace TypeOutline

variable {types : Types} {v : Value} {path : List Layer} {p q : Site} {name : Option String}
  {l : Layer}

/-! ## What is left on the node -/

/-- The level of a date-time with a declared name. -/
def Layer.dateTime (name : Option String) : Layer := ⟨name, .scalar .datetime⟩

/-- What a date-time leaves on its node. -/
def Site.dateTimeNode (q : Site) (name : Option String) : Attributes :=
  match (Layer.dateTime name).ruling q.top q.above with
  | .enters n => (q.attrs.head .datetime (.enters n)).settleScalar .datetime
  | ruling => q.attrs.head .datetime ruling

/-- Below the top a date-time is refused only if it closes a cycle. -/
theorem ruling_dateTime (name : Option String) (htop : q.top = false) :
    (∃ n, (Layer.dateTime name).ruling q.top q.above = .enters n)
      ∨ ∃ n, (Layer.dateTime name).declares? = some n
        ∧ (Layer.dateTime name).ruling q.top q.above = .cycle n := by
  have hsupported : (Layer.dateTime name).isUnsupported = false := rfl
  have hplaced : (Layer.dateTime name).isMisplaced false = false := rfl
  rw [htop, Layer.ruling, hsupported, hplaced]
  cases hname : (Layer.dateTime name).declares? with
  | none => exact .inl ⟨none, rfl⟩
  | some n =>
    by_cases hn : n ∈ q.above
    · exact .inr ⟨n, rfl, by simp [hn]⟩
    · exact .inl ⟨some n, by simp [hn]⟩

/-- A date-time that closes no cycle is a leaf that refers to nothing. -/
theorem dateTimeNode_of_enters {n : Option String}
    (hr : (Layer.dateTime name).ruling q.top q.above = .enters n) :
    (q.dateTimeNode name).generic = .dateTime
      ∧ (q.dateTimeNode name).defect = q.attrs.defect
      ∧ (q.dateTimeNode name).typeRef = "" ∧ (q.dateTimeNode name).native.typeRef = "" := by
  rw [Site.dateTimeNode, hr]
  refine ⟨?_, defect_head_enters .., rfl, ?_⟩
  · cases n <;> rfl
  · exact congrArg Override.typeRef (Attributes.native_modifyNative _ _)

/-- A date-time that closes a cycle says so, and which. -/
theorem dateTimeNode_of_cycle {n : String}
    (hr : (Layer.dateTime name).ruling q.top q.above = .cycle n) :
    (q.dateTimeNode name).generic = .dateTime
      ∧ (q.dateTimeNode name).defect = some .cyclicalReference
      ∧ (q.dateTimeNode name).typeRef = n := by
  rw [Site.dateTimeNode, hr]
  exact ⟨rfl, rfl, rfl⟩

/-- In both cases there is nothing to define. -/
theorem typeRef_dateTimeNode (htop : q.top = false) :
    (q.dateTimeNode name).native.typeRef = "" ∨ (q.dateTimeNode name).isCyclical = true := by
  rcases ruling_dateTime name htop with ⟨n, hr⟩ | ⟨n, -, hr⟩
  · exact .inl (dateTimeNode_of_enters hr).2.2.2
  · exact .inr (beq_iff_eq.mpr (dateTimeNode_of_cycle hr).2.1)

theorem outline_dateTime (hl : q.value.layer? types = some (.dateTime name))
    (htop : q.top = false) : ∃ o, Outlines types q o ∧ o.tree = .node (q.dateTimeNode name) [] := by
  rcases ruling_dateTime name htop with ⟨n, hr⟩ | ⟨n, -, hr⟩
  · refine ⟨_, ⟨1, outline_of_enters hl hr 0⟩, ?_⟩
    rw [Site.dateTimeNode, hr]
    rfl
  · refine ⟨_, ⟨1, outline_of_refused hl (fun m hm => ?_) 0⟩, ?_⟩
    · rw [hr] at hm
      exact nomatch hm
    · rw [Site.dateTimeNode, hr]
      rfl

/-! ## Visits -/

namespace Schema

variable {s : Schema} {id : NodeId} {names : Names}

theorem ext_node? {s t : Schema} (hnode : ∀ k, s.node? k = t.node? k) (hroot : s.root = t.root)
    (hrefs : s.typeRefs = t.typeRefs) : s = t := by
  obtain ⟨nodes, root, typeRefs⟩ := s
  obtain ⟨nodes', root', typeRefs'⟩ := t
  obtain rfl : nodes = nodes' := Array.ext_getElem? hnode
  obtain rfl := hroot
  obtain rfl := hrefs
  rfl

theorem node?_modifyAttrs (s : Schema) (id : NodeId) (f : Attributes → Attributes) (k : NodeId) :
    (s.modifyAttrs id f).node? k =
      if id = k then (s.node? k).map fun n => { n with toAttributes := f n.toAttributes }
      else s.node? k :=
  node?_modify ..

theorem modifyAttrs_modifyAttrs (s : Schema) (id : NodeId) (f g : Attributes → Attributes) :
    (s.modifyAttrs id f).modifyAttrs id g = s.modifyAttrs id fun a => g (f a) := by
  refine ext_node? (fun k => ?_) rfl rfl
  simp only [node?_modifyAttrs]
  split
  · rw [Option.map_map]
    rfl
  · rfl

/-- What is written on a node depends only on what stands there. -/
theorem modifyAttrs_eq_const (s : Schema) (id : NodeId) (f : Attributes → Attributes) :
    s.modifyAttrs id f = s.modifyAttrs id fun _ => f (s.attrs id) := by
  refine ext_node? (fun k => ?_) rfl rfl
  rw [node?_modifyAttrs, node?_modifyAttrs]
  split
  · rename_i hk
    subst hk
    rw [attrs]
    cases s.node? id <;> rfl
  · rfl

/-- Nothing is defined for a node without a named type, or for one that closes a cycle. -/
theorem register?_eq_self
    (h : (s.attrs id).native.typeRef = "" ∨ (s.attrs id).isCyclical = true) :
    s.register? id = some s := by
  rw [register?, registerWith?]
  rcases h with h | h
  · exact if_pos h
  · dsimp only
    rw [if_pos h, ite_self, ite_self]

/-- The head of a level that is entered, on a node that is visited. -/
theorem Ready.enter_of_enters {n : Option String} (hready : s.Ready id p.attrs p.top)
    (hnames : ∀ m, names.contains m = true ↔ m ∈ p.above)
    (hr : l.ruling p.top p.above = .enters n) :
    ∃ inner, (s.attrs id).enter (s.underRoot id) names l =
        (p.attrs.head l.shape.kind (.enters n), some inner)
      ∧ ∀ m, inner.contains m = true ↔ m ∈ declaredBelow p.above n := by
  obtain ⟨hhead, hinner⟩ := Attributes.enter_eq hnames p.attrs p.top l
  rw [hr] at hhead hinner
  obtain ⟨inner, hinner, hnames'⟩ := hinner
  rw [hready.attrs_eq, hready.underRoot_eq]
  exact ⟨inner, Prod.ext hhead hinner, hnames'⟩

theorem Ready.enter_of_cycle {n : String} (hready : s.Ready id p.attrs p.top)
    (hnames : ∀ m, names.contains m = true ↔ m ∈ p.above)
    (hr : l.ruling p.top p.above = .cycle n) :
    (s.attrs id).enter (s.underRoot id) names l =
      (p.attrs.head l.shape.kind (.cycle n), none) := by
  obtain ⟨hhead, hinner⟩ := Attributes.enter_eq hnames p.attrs p.top l
  rw [hr] at hhead hinner
  rw [hready.attrs_eq, hready.underRoot_eq]
  exact Prod.ext hhead hinner

/-- A date-time changes the attributes of its node and nothing else. -/
theorem visit_dateTime (hready : s.Ready id q.attrs q.top)
    (hnames : ∀ m, names.contains m = true ↔ m ∈ q.above)
    (hl : q.value.layer? types = some (.dateTime name)) (htop : q.top = false) (depth : Nat) :
    visit types (depth + 1) names id q.value s =
      some (s.modifyAttrs id fun _ => q.dateTimeNode name) := by
  rcases ruling_dateTime name htop with ⟨n, hr⟩ | ⟨n, -, hr⟩
  · obtain ⟨inner, henter, -⟩ := hready.enter_of_enters hnames hr
    have hattrs := (hready.modifyAttrs fun _ => q.dateTimeNode name).attrs_eq
    rw [visit_of_enters hl henter]
    show ((s.modifyAttrs id _).modifyAttrs id _).register? id = _
    rw [modifyAttrs_modifyAttrs]
    have hnode : ((q.attrs.head (Layer.dateTime name).shape.kind (.enters n)).settleScalar
        .datetime) = q.dateTimeNode name := by
      rw [Site.dateTimeNode, hr]
      rfl
    rw [hnode]
    refine register?_eq_self ?_
    rw [hattrs]
    exact typeRef_dateTimeNode htop
  · rw [visit_of_refused hl (hready.enter_of_cycle hnames hr), Site.dateTimeNode, hr]
    rfl

end Schema

/-- The second position is on the node of the first one, below wrappers. -/
inductive Site.Wraps (types : Types) : Site → Site → Prop
  | refl (p : Site) : Wraps types p p
  | content {p q r : Site} {l : Layer} (hl : p.value.layer? types = some l)
      (hwrap : l.isWrapper = true) (hq : q ∈ p.members types) (h : Wraps types q r) :
      Wraps types p r

namespace Schema

variable {s : Schema} {id : NodeId} {names : Names}

/-- What a wrapper holds is visited on its node. -/
theorem visitMembers_of_same {visit : Visit} {shape : Shape Value} {a b : Attributes} {w : Value}
    (hs : s.attrs id = a) (hlt : id < s.nodes.size) (h : shape.content a = .same b w) :
    s.visitMembers visit id shape = visit id w (s.modifyAttrs id fun _ => b) := by
  have hwrap : shape.isWrapper = true := by
    have hfits := content_fits a shape
    rw [h] at hfits
    exact hfits.1
  cases shape with
  | slot target =>
    cases target with
    | none => cases h
    | some w' =>
      obtain ⟨rfl, rfl⟩ := Content.same.inj h
      rw [visitMembers, visitSlot, modifyAttrs_eq_const, hs]
  | pointer target zero =>
    have hattrs := attrs_modifyAttrs_self hlt (·.modifyOptions (·.setBool "is_nil" target.isNone))
    dsimp only [Shape.content] at h
    split at h
    · cases h
    · rename_i hdefect
      obtain ⟨rfl, rfl⟩ := Content.same.inj h
      dsimp only [visitMembers, visitPointer]
      rw [hasFailed, hattrs, hs, if_neg hdefect, modifyAttrs_modifyAttrs, modifyAttrs_eq_const, hs]
  | list fixed elements zero => cases fixed <;> cases hwrap
  | record fields => cases hwrap
  | map key keyType entries => cases hwrap
  | scalar kind => cases h
  | nil => cases h

/-- A wrapper that is visited leaves its node to what it holds, and registers the outcome. -/
theorem visit_wrapper (hready : s.Ready id p.attrs p.top)
    (hnames : ∀ m, names.contains m = true ↔ m ∈ p.above) (hl : p.value.layer? types = some l)
    (hwrap : l.isWrapper = true) (hq : q ∈ p.members types) :
    ∃ inner, (s.modifyAttrs id fun _ => q.attrs).Ready id q.attrs q.top
      ∧ (∀ m, inner.contains m = true ↔ m ∈ q.above)
      ∧ ∀ depth, visit types (depth + 1) names id p.value s =
        (visit types depth inner id q.value (s.modifyAttrs id fun _ => q.attrs)).bind
          (·.register? id) := by
  obtain ⟨n, hr⟩ := exists_enters_of_mem_members hl hq
  obtain ⟨inner, henter, hinner⟩ := hready.enter_of_enters hnames hr
  rw [members_of_enters hl hr] at hq
  have hfits := content_fits (p.attrs.head l.shape.kind (.enters n)) l.shape
  cases hc : l.shape.content (p.attrs.head l.shape.kind (.enters n)) with
  | leaf b => rw [hc] at hq; exact absurd hq List.not_mem_nil
  | each b ms => rw [hc] at hfits; exact absurd (hfits.1.symm.trans hwrap) Bool.false_ne_true
  | probed b vs => rw [hc] at hfits; exact absurd (hfits.1.symm.trans hwrap) Bool.false_ne_true
  | same b w =>
    rw [hc] at hq
    obtain rfl := List.mem_singleton.mp hq
    have hhead := hready.modifyAttrs fun _ => p.attrs.head l.shape.kind (.enters n)
    refine ⟨inner, hready.modifyAttrs fun _ => b, hinner, fun depth => ?_⟩
    rw [visit_of_enters hl henter, visitMembers_of_same hhead.attrs_eq hhead.lt hc,
      modifyAttrs_modifyAttrs]

/-- A date-time below wrappers changes the attributes of its node and nothing else. -/
theorem visit_of_wraps (h : p.Wraps types q) (hl : q.value.layer? types = some (.dateTime name))
    (htop : q.top = false) : ∀ {s : Schema} {names : Names}, s.Ready id p.attrs p.top →
      (∀ m, names.contains m = true ↔ m ∈ p.above) →
        ∃ bound, ∀ depth, bound ≤ depth → visit types depth names id p.value s =
          some (s.modifyAttrs id fun _ => q.dateTimeNode name) := by
  induction h with
  | refl q =>
    intro s names hready hnames
    refine ⟨1, fun depth hdepth => ?_⟩
    obtain ⟨depth, rfl⟩ := Nat.exists_eq_add_of_le' hdepth
    exact visit_dateTime hready hnames hl htop depth
  | @content p q r l hlayer hwrap hq _ ih =>
    intro s names hready hnames
    obtain ⟨inner, hready', hinner, hvisit⟩ := visit_wrapper hready hnames hlayer hwrap hq
    obtain ⟨bound, hbound⟩ := ih hl htop hready' hinner
    refine ⟨bound + 1, fun depth hdepth => ?_⟩
    obtain ⟨depth, rfl⟩ := Nat.exists_eq_add_of_le' (Nat.le_trans (Nat.succ_pos _) hdepth)
    rw [hvisit, hbound depth (Nat.le_of_succ_le_succ hdepth), Option.bind_some,
      modifyAttrs_modifyAttrs]
    refine register?_eq_self ?_
    rw [(hready.modifyAttrs fun _ => r.dateTimeNode name).attrs_eq]
    exact typeRef_dateTimeNode htop

end Schema

/-! ## The main result -/

/-- A date-time that is reached below the top, on a node that has not failed, leaves there a leaf of
its own type. It refers to nothing and has no defect, unless its declared name closes a cycle. In
both cases a visit, of the date-time or of wrappers on its node, changes the attributes of that node
and nothing else in the arena, so nothing is defined. The leaf is what stands in the tree of the
value, on each node that stands for the date-time. -/
theorem dateTime_of_reaches (hpath : Reaches types (.start v) path q)
    (hl : q.value.layer? types = some (.dateTime name)) (htop : q.top = false)
    (hdefect : q.attrs.defect = none) :
    ∃ a : Attributes, a.generic = .dateTime
      ∧ (¬ ClosesCycle path (.dateTime name) →
        a.defect = none ∧ a.typeRef = "" ∧ a.native.typeRef = "")
      ∧ (ClosesCycle path (.dateTime name) → a.defect = some .cyclicalReference
        ∧ (Layer.dateTime name).declares? = some a.typeRef)
      ∧ (∀ p : Site, p.Wraps types q → ∀ s id names, Schema.Ready s id p.attrs p.top →
        (∀ m, names.contains m = true ↔ m ∈ p.above) → ∃ bound, ∀ depth, bound ≤ depth →
          Schema.visit types depth names id p.value s = some (s.modifyAttrs id fun _ => a))
      ∧ ∀ s k, derive? types v = some s → s.StandsFor types v k q → s.tree k = .node a [] := by
  have hcycle := exists_ruling_eq_cycle_iff (l := .dateTime name) hpath
  refine ⟨q.dateTimeNode name, ?_, fun hopen => ?_, fun hcloses => ?_,
    fun p hwraps s id names hready hnames => Schema.visit_of_wraps hwraps hl htop hready hnames,
    fun s k hs hk => ?_⟩
  · rcases ruling_dateTime name htop with ⟨n, hr⟩ | ⟨n, -, hr⟩
    · exact (dateTimeNode_of_enters hr).1
    · exact (dateTimeNode_of_cycle hr).1
  · rcases ruling_dateTime name htop with ⟨n, hr⟩ | ⟨n, -, hr⟩
    · obtain ⟨-, hnode, href, hnative⟩ := dateTimeNode_of_enters hr
      exact ⟨hnode.trans hdefect, href, hnative⟩
    · exact absurd (hcycle.mp ⟨n, hr⟩) hopen
  · obtain ⟨n, hr⟩ := hcycle.mpr hcloses
    obtain ⟨-, hnode, href⟩ := dateTimeNode_of_cycle hr
    exact ⟨hnode, href ▸ (ruling_eq_cycle.mp hr).2.2.1⟩
  · obtain ⟨o, ho, hrenders⟩ := exists_outlines_of_derive? hs
    obtain ⟨-, o', ho', htree⟩ := hk.exists_outlines (linked_of_derive? hs) hrenders ho
    obtain ⟨o'', ho'', hleaf⟩ := outline_dateTime hl htop
    rw [htree, Outlines.unique ho' ho'', hleaf]

/-! ## Two records -/

def dateTimeNamed (n : String) : Value := .layer (some n) (.scalar .datetime)

/-- A date-time in a slot of a named type. -/
def stamp : Value := .layer (some "Any") (.slot (some (dateTimeNamed "DateTime")))

/-- A record of a named type with one member. -/
def recordAt (n : String) (v : Value) : Value :=
  .layer (some n) (.record [{ name := "At", value := v }])

/-- Where the member of a record stands. -/
def memberSite (n : String) (v : Value) : Site :=
  ⟨Schema.fieldAttributes (⟨"At", true, "", v⟩ : Field Value), false, insert n ∅, v⟩

/-- Where the date-time in the slot stands. -/
def stampSite : Site :=
  ⟨{ (memberSite "Order" stamp).attrs.head .dyn (.enters (some "Any")) with nullable := true },
    false, insert "Any" (insert "Order" ∅), dateTimeNamed "DateTime"⟩

/-- The names of the record and of the slot are not that of the date-time. -/
theorem dateTime_of_reaches_stamp : ∃ path,
    Reaches {} (.start (recordAt "Order" stamp)) path stampSite
      ∧ stampSite.value.layer? {} = some (.dateTime (some "DateTime")) ∧ stampSite.top = false
      ∧ stampSite.attrs.defect = none
      ∧ ∃ s k a, derive? {} (recordAt "Order" stamp) = some s ∧ s.tree k = .node a []
        ∧ a.generic = .dateTime ∧ a.defect = none ∧ a.typeRef = "" := by
  have hmembers : (Site.start (recordAt "Order" stamp)).members {} = [memberSite "Order" stamp] :=
    rfl
  have hcontent : (memberSite "Order" stamp).members {} = [stampSite] := rfl
  have hpath : Reaches {} (.start (recordAt "Order" stamp)) _ stampSite :=
    .member (.member .start rfl (hmembers ▸ List.mem_singleton_self _)) rfl
      (hcontent ▸ List.mem_singleton_self _)
  have hdefect : stampSite.attrs.defect = none := by decide +kernel
  have hcycle : ¬ ClosesCycle _ (.dateTime (some "DateTime")) :=
    mt (exists_ruling_eq_cycle_iff hpath).mpr fun ⟨n, hn⟩ => nomatch hn
  obtain ⟨a, hdate, hopen, -, -, htree⟩ := dateTime_of_reaches hpath rfl rfl hdefect
  obtain ⟨hnone, href, -⟩ := hopen hcycle
  have hderive : (derive? {} (recordAt "Order" stamp)).map
      (fun s => (s.children s.root, s.children 1)) = some ([1], [2]) := by decide +kernel
  obtain ⟨s, hs, hchildren⟩ := Option.map_eq_some_iff.mp hderive
  obtain ⟨hroot, hchild⟩ := Prod.mk.inj hchildren
  have hk : s.StandsFor {} (recordAt "Order" stamp) 2 stampSite :=
    .content (.member (i := 0) (.start hroot) rfl rfl (by rw [hchild]; rfl) (by rw [hmembers]; rfl))
      rfl rfl (hcontent ▸ List.mem_singleton_self _)
  exact ⟨_, hpath, rfl, rfl, hdefect, s, 2, a, hs, htree s 2 hs hk, hdate, hnone, href⟩

/-- Each date-time that is reached below the top, on a node that has not failed, is a leaf there
that has no defect and refers to nothing. -/
def Value.AtomicDateTimes (types : Types) (v : Value) : Prop :=
  ∀ path q name s k, Reaches types (.start v) path q →
    q.value.layer? types = some (.dateTime name) → q.top = false → q.attrs.defect = none →
      derive? types v = some s → s.StandsFor types v k q →
        ∃ a, s.tree k = .node a [] ∧ a.generic = .dateTime ∧ a.defect = none ∧ a.typeRef = ""

/-- A date-time in a record whose type has the name of the date-time. -/
theorem not_atomicDateTimes_enclosed :
    ¬ (recordAt "DateTime" (dateTimeNamed "DateTime")).AtomicDateTimes {} := by
  intro h
  have hmembers : (Site.start (recordAt "DateTime" (dateTimeNamed "DateTime"))).members {} =
      [memberSite "DateTime" (dateTimeNamed "DateTime")] := rfl
  have hderive : (derive? {} (recordAt "DateTime" (dateTimeNamed "DateTime"))).map
      (fun s => (s.children s.root, s.children 1, (s.tree 2).label.defect)) =
        some ([1], [2], some .cyclicalReference) := by decide +kernel
  obtain ⟨s, hs, hnodes⟩ := Option.map_eq_some_iff.mp hderive
  obtain ⟨hroot, hnodes⟩ := Prod.mk.inj hnodes
  obtain ⟨hchild, hdefect⟩ := Prod.mk.inj hnodes
  obtain ⟨a, ha, -, hnone, -⟩ := h _ (memberSite "DateTime" (dateTimeNamed "DateTime")) _ s 2
    (.member .start rfl (hmembers ▸ List.mem_singleton_self _)) rfl rfl (by decide +kernel) hs
    (.member (i := 0) (.start hroot) rfl rfl (by rw [hchild]; rfl) (by rw [hmembers]; rfl))
  rw [ha] at hdefect
  exact nomatch hnone.symm.trans hdefect

end TypeOutline
