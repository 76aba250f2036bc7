import TypeOutline.Proofs.Derivation.Registering
import TypeOutline.Proofs.Related

/-!
# Visiting in the arena

The walk over a value does in the arena what the outline says. A node is
visited when it is the last one (`Ready`). The visit writes on that node
and below the top of the definitions, adds nodes behind it, and leaves
below it the tree of the outline and among the definitions those of the
registry (`Visited`). It ends exactly if there is an outline, which is
why the two are compared by `Option.Rel`.

The nodes on the way down, and the top of the definitions, are `busy`: no
definition that is made in the meantime lies across one of them.
-/

namespace TypeOutline

namespace Schema

variable {s s₀ s₁ s' : Schema} {id : Nat} {a : Attributes} {top : Bool}
  {R : List (Rose Attributes)} {busy : Nat → Prop}

/-! ## Before and after a visit -/

/-- The last node of the arena, of which nothing is known but its attributes. -/
structure Ready (s : Schema) (id : Nat) (a : Attributes) (top : Bool) : Prop where
  sound : s.Sound
  size_eq : s.nodes.size = id + 1
  typeRefs_lt : s.typeRefs < id
  attrs_eq : s.attrs id = a
  children_eq : s.children id = []
  underRoot_eq : s.underRoot id = top

theorem Ready.lt (h : s.Ready id a top) : id < s.nodes.size := by
  have hsize := h.size_eq
  omega

/-- The nodes that may be written on when `id` is visited are busy, and all
busy nodes are there already. -/
structure Busy (s : Schema) (id : Nat) (busy : Nat → Prop) : Prop where
  lt_size : ∀ k, busy k → k < s.nodes.size
  self : busy id
  typeRefs : busy s.typeRefs

/-- The tree below the node after the visit, and the definitions. -/
structure Visited (s s' : Schema) (id : Nat) (busy : Nat → Prop) (t : Rose Attributes)
    (R : List (Rose Attributes)) : Prop where
  sound : s'.Sound
  grows : Grows s s' (fun k => k = id ∨ k = s.typeRefs)
  parent?_eq : s'.parent? id = s.parent? id
  shows : Shows s' id s'.nodes.size id t
  holds : s'.Holds R busy

/-- Every visit of the last node of an arena does what the outline says. -/
def Implements (visit : Visit) (derive : Site → Option Outline) (above : Finset String) : Prop :=
  ∀ {s : Schema} {id : Nat} {a : Attributes} {top : Bool} {R : List (Rose Attributes)}
    {busy : Nat → Prop} (v : Value), s.Ready id a top → s.Busy id busy → s.Holds R busy →
      Option.Rel (fun s' o => Visited s s' id busy o.tree (recordAll R o.finished))
        (visit id v s) (derive ⟨a, top, above, v⟩)

theorem underRoot_modifyAttrs (hs : s.Sound) (id : NodeId) (f : Attributes → Attributes) :
    (s.modifyAttrs id f).underRoot id = s.underRoot id := by
  unfold underRoot
  rw [parent?_modifyAttrs]
  cases hp : s.parent? id with
  | none => rfl
  | some p =>
      have hlt : p < id := hs.lt_of_mem_children (hs.mem_children_iff.mpr hp)
      show ((s.modifyAttrs id f).attrs p).isRoot = (s.attrs p).isRoot
      rw [attrs_congr (node?_modifyAttrs_of_ne (Nat.ne_of_lt hlt) f)]

theorem Ready.modifyAttrs (h : s.Ready id a top) (f : Attributes → Attributes) :
    (s.modifyAttrs id f).Ready id (f a) top where
  sound := h.sound.modifyAttrs id f
  size_eq := (size_modifyAttrs s id f).trans h.size_eq
  typeRefs_lt := h.typeRefs_lt
  attrs_eq := by rw [attrs_modifyAttrs_self h.lt, h.attrs_eq]
  children_eq := (children_modifyAttrs s id f id).trans h.children_eq
  underRoot_eq := (underRoot_modifyAttrs h.sound id f).trans h.underRoot_eq

theorem Busy.modifyAttrs (h : s.Busy id busy) (f : Attributes → Attributes) :
    (s.modifyAttrs id f).Busy id busy where
  lt_size k hk := by
    rw [size_modifyAttrs]
    exact h.lt_size k hk
  self := h.self
  typeRefs := h.typeRefs

theorem Holds.modifyAttrs (h : s.Holds R busy) (hid : busy id) (hs : s.Sound)
    (hne : s.typeRefs ≠ id) (f : Attributes → Attributes) : (s.modifyAttrs id f).Holds R busy :=
  h.frame (grows_modifyAttrs s id f) (fun _ _ hk => hk ▸ hid) hne hs.typeRefs_lt

/-- A visit may write on its node first. -/
theorem Visited.of_modifyAttrs {f : Attributes → Attributes} {t : Rose Attributes}
    (h : Visited (s.modifyAttrs id f) s' id busy t R) : Visited s s' id busy t R where
  sound := h.sound
  grows := ((grows_modifyAttrs s id f).mono fun _ _ hk => .inl hk).trans h.grows fun _ _ hk => hk
  parent?_eq := h.parent?_eq.trans (parent?_modifyAttrs ..)
  shows := h.shows
  holds := h.holds

/-- A node without members. -/
theorem Ready.visited (h : s.Ready id a top) (hholds : s.Holds R busy) :
    Visited s s id busy (.node a []) R where
  sound := h.sound
  grows := .refl s _
  parent?_eq := rfl
  shows := by
    refine ⟨Nat.le_refl id, h.lt, h.attrs_eq, ?_⟩
    rw [h.children_eq]
    exact h.lt
  holds := hholds

/-! ## A node with some of its members -/

/-- A node that is visited, with the trees of its members so far. -/
structure Open (s₀ s : Schema) (id : Nat) (busy : Nat → Prop) (a : Attributes)
    (ts : List (Rose Attributes)) (R : List (Rose Attributes)) : Prop where
  sound : s.Sound
  grows : Grows s₀ s (fun k => k = id ∨ k = s₀.typeRefs)
  attrs_eq : s.attrs id = a
  parent?_eq : s.parent? id = s₀.parent? id
  shows : ShowsAll s (id + 1) s.nodes.size (s.children id) ts
  holds : s.Holds R busy

theorem Ready.open (h : s.Ready id a top) (hholds : s.Holds R busy) :
    Open s s id busy a [] R where
  sound := h.sound
  grows := .refl s _
  attrs_eq := h.attrs_eq
  parent?_eq := rfl
  shows := by
    rw [h.children_eq]
    exact h.lt
  holds := hholds

theorem Open.visited {ts : List (Rose Attributes)} (h : Open s₀ s id busy a ts R) :
    Visited s₀ s id busy (.node a ts) R where
  sound := h.sound
  grows := h.grows
  parent?_eq := h.parent?_eq
  shows := ⟨Nat.le_refl id, h.shows.le, h.attrs_eq, h.shows⟩
  holds := h.holds

section Members

variable {visit : Visit} {derive : Site → Option Outline} {above : Finset String}
  {ts : List (Rose Attributes)}

/-- A new last node below an open one. -/
theorem Open.ready (h : Open s₀ s id busy a ts R) (hrefs : s₀.typeRefs < id)
    (hroot : a.isRoot = false) (b : Attributes) :
    ((s.alloc b).attach id s.nodes.size).Ready s.nodes.size b false := by
  have hid : id < s.nodes.size := h.shows.le
  have hlt : s.nodes.size < (s.alloc b).nodes.size := by simp
  have hid' : id < (s.alloc b).nodes.size := Nat.lt_trans hid hlt
  have hnone : (s.alloc b).parent? s.nodes.size = none := by
    rw [parent?_alloc, parent?, node?_eq_none (Nat.le_refl _)]
    rfl
  have htop : s.typeRefs = s₀.typeRefs := h.grows.typeRefs_eq
  refine ⟨?_, by simp, ?_, ?_, ?_, ?_⟩
  · refine (h.sound.alloc b).attach hid hlt hnone ?_ ?_
    · exact Nat.ne_of_gt h.sound.root_lt
    · exact Nat.ne_of_gt h.sound.typeRefs_lt
  · rw [typeRefs_attach, typeRefs_alloc, htop]
    exact Nat.lt_trans hrefs hid
  · rw [attrs_attach, attrs_alloc_self]
  · rw [children_attach hid', if_neg (Nat.ne_of_gt hid), children_alloc, children,
      node?_eq_none (Nat.le_refl _)]
    rfl
  · have hattrs : ((s.alloc b).attach id s.nodes.size).attrs id = a := by
      rw [attrs_attach, attrs_congr (node?_alloc_of_ne b (Nat.ne_of_lt hid)), h.attrs_eq]
    rw [underRoot, parent?_attach hlt, if_pos rfl, Option.any_some, hattrs, hroot]

/-- The definitions are out of the way of a new last node. -/
theorem Open.holds_attach (h : Open s₀ s id busy a ts R) (hrefs : s₀.typeRefs < id)
    (hbusy : s₀.Busy id busy) (b : Attributes) :
    ((s.alloc b).attach id s.nodes.size).Holds R (fun k => busy k ∨ k = s.nodes.size) := by
  have hid : id < s.nodes.size := h.shows.le
  have htop : s.typeRefs = s₀.typeRefs := h.grows.typeRefs_eq
  have hnew : s.Holds R (fun k => busy k ∨ k = s.nodes.size) :=
    h.holds.mono fun k hk hb => hb.elim (fun hb => hb) fun heq => absurd heq (Nat.ne_of_lt hk)
  refine hnew.frame (((grows_alloc s b).mono fun _ _ hk => hk.elim).trans
    (grows_attach _ id s.nodes.size) fun _ _ hk => hk) ?_ ?_ h.sound.typeRefs_lt
  · rintro k _ (rfl | rfl)
    · exact .inl hbusy.self
    · exact .inr rfl
  · rintro (heq | heq)
    · exact Nat.ne_of_lt (htop ▸ hrefs) heq
    · exact Nat.ne_of_lt h.sound.typeRefs_lt heq

/-- One more member. -/
theorem rel_visitChild (hv : Implements visit derive above) (h : Open s₀ s id busy a ts R)
    (hready : s₀.Ready id a top) (hbusy : s₀.Busy id busy) (hroot : a.isRoot = false)
    (b : Attributes) (v : Value) :
    Option.Rel (fun s' o => Open s₀ s' id busy a (ts ++ [o.tree]) (recordAll R o.finished)
        ∧ s'.children id = s.children id ++ [s.nodes.size]
        ∧ s'.attrs s.nodes.size = o.tree.label)
      (s.visitChild visit id b v) (derive ⟨b, false, above, v⟩) := by
  have hrefs : s₀.typeRefs < id := hready.typeRefs_lt
  have htop : s.typeRefs = s₀.typeRefs := h.grows.typeRefs_eq
  have hid : id < s.nodes.size := h.shows.le
  have hlt : s.nodes.size < (s.alloc b).nodes.size := by simp
  have hid' : id < (s.alloc b).nodes.size := Nat.lt_trans hid hlt
  have hne : id ≠ s.nodes.size := Nat.ne_of_lt hid
  have hlink : (s.alloc b).addChild id s.nextId = (s.alloc b).attach id s.nodes.size := by
    have hnone : (s.alloc b).parent? s.nodes.size = none := by
      rw [parent?_alloc, parent?, node?_eq_none (Nat.le_refl _)]
      rfl
    exact addChild_of_parent?_none hlt hnone id
  have hbusy' : ((s.alloc b).attach id s.nodes.size).Busy s.nodes.size
      (fun k => busy k ∨ k = s.nodes.size) := by
    refine ⟨fun k hk => ?_, .inr rfl, .inl ?_⟩
    · rw [size_attach, size_alloc]
      rcases hk with hk | rfl
      · exact Nat.lt_succ_of_lt (Nat.lt_of_lt_of_le (hbusy.lt_size k hk) h.grows.size_le)
      · exact Nat.lt_succ_self _
    · rw [typeRefs_attach, typeRefs_alloc, htop]
      exact hbusy.typeRefs
  have hlinked : Grows s ((s.alloc b).attach id s.nodes.size)
      (fun k => k = id ∨ k = s.nodes.size) :=
    ((grows_alloc s b).mono fun _ _ hk => hk.elim).trans (grows_attach _ id s.nodes.size)
      fun _ _ hk => hk
  rw [visitChild, hlink]
  refine rel_imp (hv v (h.ready hrefs hroot b) hbusy' (h.holds_attach hrefs hbusy b)) ?_
  intro s' o hvisited
  have hgrows : Grows s s' (fun k => k = id ∨ k = s.typeRefs) := by
    refine (hlinked.mono fun k hk h => ?_).trans hvisited.grows fun k hk h => ?_
    · exact h.imp_right fun h => absurd h (Nat.ne_of_lt hk)
    · exact h.elim (fun h => absurd h (Nat.ne_of_lt hk)) .inr
  have hnode : s'.node? id = ((s.alloc b).attach id s.nodes.size).node? id := by
    refine hvisited.grows.node?_eq id (by simpa using hid') ?_
    rintro (heq | heq)
    · exact hne heq
    · exact Nat.ne_of_gt (htop ▸ hrefs : s.typeRefs < id) heq
  have hchildren : s'.children id = s.children id ++ [s.nodes.size] := by
    rw [children_congr hnode, children_attach hid', if_pos rfl, children_alloc]
  refine ⟨⟨hvisited.sound, ?_, ?_, ?_, ?_, ?_⟩, hchildren, hvisited.shows.attrs_eq⟩
  · exact h.grows.trans hgrows fun k _ hk => htop ▸ hk
  · rw [attrs_congr hnode, attrs_attach, attrs_congr (node?_alloc_of_ne b hne), h.attrs_eq]
  · rw [parent?_congr hnode, parent?_attach hlt, if_neg hne, parent?_alloc, h.parent?_eq]
  · rw [hchildren]
    refine .concat hvisited.shows (h.shows.frame (hgrows.agree (Nat.le_refl _) fun k hk _ => ?_))
    rintro (rfl | rfl)
    · exact Nat.not_succ_le_self _ hk
    · exact Nat.not_succ_le_self _ (Nat.le_trans hk (Nat.le_of_lt (htop ▸ hrefs)))
  · exact hvisited.holds.mono fun _ _ hk => .inl hk

/-- Members on nodes of their own, one after the other. -/
theorem rel_visitEach (hv : Implements visit derive above) (hready : s₀.Ready id a top)
    (hbusy : s₀.Busy id busy) (hroot : a.isRoot = false) :
    ∀ (members : List (Attributes × Value)) {s : Schema} {ts R : List (Rose Attributes)},
      Open s₀ s id busy a ts R →
      Option.Rel (fun s' os => Open s₀ s' id busy a (ts ++ os.map (·.tree))
          (recordAll R (os.flatMap (·.finished))))
        (members.foldlM (fun s m => s.visitChild visit id m.1 m.2) s)
        (members.mapM fun m => derive ⟨m.1, false, above, m.2⟩)
  | [], s, ts, R, h => by
      refine .some ?_
      simpa [recordAll] using h
  | m :: members, s, ts, R, h => by
      rw [List.foldlM_cons, List.mapM_cons]
      refine rel_bind (rel_visitChild hv h hready hbusy hroot m.1 m.2) ?_
      rintro s' o - ⟨h', -, -⟩
      have hrest := rel_visitEach hv hready hbusy hroot members h'
      generalize members.foldlM (fun s m => s.visitChild visit id m.1 m.2) s' = x at hrest
      generalize (members.mapM fun m => derive ⟨m.1, false, above, m.2⟩) = y at hrest
      cases hrest with
      | none => exact .none
      | some hab =>
          refine .some ?_
          rw [List.map_cons, List.flatMap_cons, recordAll_append]
          simpa using hab

/-! ## Lists -/

theorem children_removeChildren : ∀ {cs : List NodeId} {s : Schema} {keep : List NodeId},
    s.children id = keep ++ cs → (keep ++ cs).Nodup →
      (s.removeChildren id cs).children id = keep
  | [], _, keep, h, _ => by rw [removeChildren, List.foldl_nil, h, List.append_nil]
  | c :: cs, s, keep, h, hnodup => by
      have hnot : c ∉ keep := fun hc =>
        (List.nodup_append.mp hnodup).2.2 c hc c List.mem_cons_self rfl
      have hstep : (s.removeChild id c).children id = keep ++ cs := by
        rw [children_removeChild, if_pos rfl, h, List.erase_append_right _ hnot,
          List.erase_cons_head]
      refine children_removeChildren (s := s.removeChild id c) hstep ?_
      exact hnodup.sublist ((List.sublist_cons_self c cs).append_left keep)

/-- Taking children out of the list of a node changes nothing else. -/
theorem removeChildren_frame (id : NodeId) : ∀ (cs : List NodeId) {s : Schema}, s.Sound →
    (s.removeChildren id cs).Sound
      ∧ (s.removeChildren id cs).nodes.size = s.nodes.size
      ∧ Grows s (s.removeChildren id cs) (fun k => k = id ∨ k ∈ cs)
      ∧ (∀ k, (s.removeChildren id cs).attrs k = s.attrs k)
      ∧ (∀ k, k ≠ id → (s.removeChildren id cs).children k = s.children k)
      ∧ ∀ k, k ∉ cs → (s.removeChildren id cs).parent? k = s.parent? k
  | [], s, hs => ⟨hs, rfl, .refl s _, fun _ => rfl, fun _ _ => rfl, fun _ _ => rfl⟩
  | c :: cs, s, hs => by
      obtain ⟨hsound, hsize, hgrows, hattrs, hchildren, hparent⟩ :=
        removeChildren_frame id cs (hs.removeChild id c)
      refine ⟨hsound, ?_, ?_, fun k => ?_, fun k hk => ?_, fun k hk => ?_⟩
      · exact hsize.trans (size_removeChild s id c)
      · refine ((grows_removeChild s id c).mono fun k _ hk => ?_).trans hgrows fun k _ hk => ?_
        · rcases hk with hk | rfl
          · exact .inl hk
          · exact .inr List.mem_cons_self
        · exact hk.imp_right fun h => List.mem_cons_of_mem c h
      · exact (hattrs k).trans (attrs_removeChild s id c k)
      · exact (hchildren k hk).trans (by rw [children_removeChild, if_neg hk])
      · rw [List.mem_cons, not_or] at hk
        exact (hparent k hk.2).trans (parent?_removeChild_of_ne hk.1 id)

/-- The first children of a node stay when the others are taken out. -/
theorem Open.removeChildren {b : Attributes} (h : Open s₀ s id busy a ts R)
    (hready : s₀.Ready id b top) (hbusy : s₀.Busy id busy) {keep cs : List NodeId}
    (hc : s.children id = keep ++ cs) :
    Open s₀ (s.removeChildren id cs) id busy a (ts.take keep.length) R := by
  obtain ⟨hsound, hsize, hgrows, hattrs, hchildren, hparent⟩ :=
    removeChildren_frame id cs h.sound
  have hkeep := children_removeChildren hc (hc ▸ h.sound.nodup_children id)
  have hbelow : ∀ c ∈ cs, id < c := fun c hcs =>
    (h.shows.mem_bounds c (hc ▸ List.mem_append_right keep hcs)).1
  have htop : s.typeRefs = s₀.typeRefs := h.grows.typeRefs_eq
  have hrefs : s.typeRefs ≠ id := htop ▸ Nat.ne_of_lt hready.typeRefs_lt
  have hshows := h.shows
  rw [hc] at hshows
  refine ⟨hsound, ?_, ?_, ?_, ?_, ?_, ?_⟩
  · refine h.grows.trans hgrows fun k hk hcs => .inl (hcs.elim (fun h => h) fun hcs => ?_)
    have hlt := hbelow k hcs
    have hsize₀ := hready.size_eq
    omega
  · exact (hattrs id).trans h.attrs_eq
  · exact (hparent id fun hcs => Nat.lt_irrefl _ (hbelow id hcs)).trans h.parent?_eq
  · rw [hkeep, hsize]
    exact hshows.take.frame fun k hk _ => ⟨hattrs k, hchildren k (Nat.ne_of_gt hk)⟩
  · rw [hgrows.typeRefs_eq, hattrs]
    exact h.holds.attrs_eq
  · rw [hgrows.typeRefs_eq, hchildren _ hrefs]
    exact h.holds.frame_rows (Nat.le_of_eq hsize.symm) fun k _ hk =>
      ⟨hattrs k, hchildren k fun heq => hk (heq ▸ hbusy.self)⟩

theorem Open.modifyAttrs (h : Open s₀ s id busy a ts R) (hready : s₀.Ready id a top)
    (hbusy : s₀.Busy id busy) (f : Attributes → Attributes) :
    Open s₀ (s.modifyAttrs id f) id busy (f a) ts R := by
  have hid : id < s.nodes.size := h.shows.le
  have htop : s.typeRefs = s₀.typeRefs := h.grows.typeRefs_eq
  have hrefs : s.typeRefs ≠ id := htop ▸ Nat.ne_of_lt hready.typeRefs_lt
  refine ⟨h.sound.modifyAttrs id f, ?_, ?_, ?_, ?_, ?_⟩
  · exact h.grows.trans (grows_modifyAttrs s id f) fun k _ hk => .inl hk
  · rw [attrs_modifyAttrs_self hid, h.attrs_eq]
  · rw [parent?_modifyAttrs, h.parent?_eq]
  · rw [children_modifyAttrs, size_modifyAttrs]
    exact h.shows.frame ((grows_modifyAttrs s id f).agree (Nat.le_refl _)
      fun k hk _ => Nat.ne_of_gt hk)
  · exact h.holds.modifyAttrs hbusy.self h.sound hrefs f

/-- The elements of a list: all of them are visited, and one is kept. -/
theorem rel_probe (hv : Implements visit derive above) (hready : s₀.Ready id a top)
    (hbusy : s₀.Busy id busy) (hroot : a.isRoot = false) :
    ∀ (elements : List Value) {probed : List NodeId} {kinds : Dictionary Nat} {s : Schema}
      {ts R : List (Rose Attributes)}, Open s₀ s id busy a ts R → s.children id = probed.reverse →
      ¬ kinds.size > 1 →
      Option.Rel (fun s' r => Visited s₀ s' id busy
          (if r.2.size > 1 then .node (mixedKinds r.2 a) []
            else .node a ((ts ++ r.1.map (·.tree)).take 1))
          (recordAll R (r.1.flatMap (·.finished))))
        (probe visit id elements probed kinds s)
        (Outline.gather (fun v => derive ⟨{ name := "" }, false, above, v⟩) elements kinds)
  | [], probed, kinds, s, ts, R, h, hc, hk => by
      refine .some ?_
      dsimp only
      rw [if_neg hk, List.map_nil, List.append_nil]
      have hsplit : s.children id = probed.reverse.take 1 ++ probed.reverse.drop 1 := by
        rw [List.take_append_drop]
        exact hc
      have htake : ts.take (probed.reverse.take 1).length = ts.take 1 := by
        rw [List.take_eq_take_iff, List.length_take, ← hc, h.shows.length_eq, Nat.min_assoc,
          Nat.min_self]
      have hkept := (h.removeChildren hready hbusy hsplit).visited
      rw [htake] at hkept
      exact hkept
  | v :: vs, probed, kinds, s, ts, R, h, hc, hk => by
      rw [probe, Outline.gather]
      refine rel_bind (rel_visitChild hv h hready hbusy hroot { name := "" } v) ?_
      rintro s' o - ⟨h', hc', hlabel⟩
      have hprobed : s'.children id = (s.nodes.size :: probed).reverse := by
        rw [hc', hc, List.reverse_cons]
      simp only [nextId, hlabel]
      generalize kinds.update o.tree.label.typeLabel 0 (· + 1) = kinds'
      by_cases hk' : kinds'.size > 1
      · rw [if_pos hk', if_pos hk']
        refine .some ?_
        dsimp only
        rw [if_pos hk', List.flatMap_singleton]
        have hmixed := h'.modifyAttrs hready hbusy (mixedKinds kinds')
        have hall : (s'.modifyAttrs id (mixedKinds kinds')).children id =
            [] ++ (s.nodes.size :: probed).reverse := by
          rw [children_modifyAttrs]
          exact hprobed
        exact (hmixed.removeChildren hready hbusy hall).visited
      · rw [if_neg hk', if_neg hk']
        have hrest := rel_probe hv hready hbusy hroot vs h' hprobed hk'
        generalize probe visit id vs (s.nodes.size :: probed) kinds' s' = x at hrest
        generalize Outline.gather (fun v => derive ⟨{ name := "" }, false, above, v⟩) vs kinds' = y
          at hrest
        cases hrest with
        | none => exact .none
        | some hab =>
            refine .some ?_
            dsimp only
            rw [List.flatMap_cons, recordAll_append, List.map_cons]
            simpa using hab

/-! ## The content of a level -/

/-- A level that only writes on its node. -/
theorem rel_leaf (hready : s.Ready id a top) (hbusy : s.Busy id busy) (hholds : s.Holds R busy)
    (f : Attributes → Attributes) :
    Option.Rel (fun s' (o : Outline) => Visited s s' id busy o.tree (recordAll R o.finished))
      (some (s.modifyAttrs id f)) (some (.leaf (f a))) := by
  have hne : s.typeRefs ≠ id := Nat.ne_of_lt hready.typeRefs_lt
  have hleaf := (hready.modifyAttrs f).visited
    (hholds.modifyAttrs hbusy.self hready.sound hne f)
  exact .some hleaf.of_modifyAttrs

theorem rel_same (hv : Implements visit derive above) (hready : s.Ready id a top)
    (hbusy : s.Busy id busy) (hholds : s.Holds R busy) (f : Attributes → Attributes) (v : Value) :
    Option.Rel (fun s' o => Visited s s' id busy o.tree (recordAll R o.finished))
      (visit id v (s.modifyAttrs id f)) (derive ⟨f a, top, above, v⟩) := by
  have hne : s.typeRefs ≠ id := Nat.ne_of_lt hready.typeRefs_lt
  have hsame := hv v (hready.modifyAttrs f) (hbusy.modifyAttrs f)
    (hholds.modifyAttrs hbusy.self hready.sound hne f)
  exact rel_imp hsame fun _ _ h => h.of_modifyAttrs

theorem rel_each (hv : Implements visit derive above) (hready : s.Ready id a top)
    (hbusy : s.Busy id busy) (hholds : s.Holds R busy) (hroot : a.isRoot = false)
    (members : List (Attributes × Value)) :
    Option.Rel (fun s' o => Visited s s' id busy o.tree (recordAll R o.finished))
      (members.foldlM (fun s m => s.visitChild visit id m.1 m.2) s)
      ((Content.each a members).outline derive top above) := by
  have heach := rel_visitEach hv hready hbusy hroot members (hready.open hholds)
  rw [Content.outline]
  generalize members.foldlM (fun s m => s.visitChild visit id m.1 m.2) s = x at heach
  generalize (members.mapM fun m => derive ⟨m.1, false, above, m.2⟩) = y at heach
  cases heach with
  | none => exact .none
  | some hab => exact .some hab.visited

theorem hasFailed_eq (hready : s.Ready id a top) : s.hasFailed id = a.defect.isSome := by
  rw [hasFailed, hready.attrs_eq]

theorem rel_visitList (hv : Implements visit derive above) (hready : s.Ready id a top)
    (hbusy : s.Busy id busy) (hholds : s.Holds R busy) (hroot : a.isRoot = false) (fixed : Bool)
    (elements : List Value) (zero : Value) :
    Option.Rel (fun s' o => Visited s s' id busy o.tree (recordAll R o.finished))
      (s.visitList visit id elements zero)
      (((Shape.list fixed elements zero).content a).outline derive top above) := by
  have hne : s.typeRefs ≠ id := Nat.ne_of_lt hready.typeRefs_lt
  have hready₁ := hready.modifyAttrs (·.modifyOptions (·.set "len" (toString elements.length)))
  have hholds₁ := hholds.modifyAttrs hbusy.self hready.sound hne
    (·.modifyOptions (·.set "len" (toString elements.length)))
  have hbusy₁ := hbusy.modifyAttrs (·.modifyOptions (·.set "len" (toString elements.length)))
  dsimp only [visitList, Shape.content]
  rw [hasFailed_eq hready₁]
  split
  · exact rel_leaf hready hbusy hholds _
  · split
    · have heach := rel_each hv hready₁ hbusy₁ hholds₁ hroot [({ name := "" }, zero)]
      rw [List.foldlM_cons] at heach
      rw [show ∀ x : Option Schema, (x >>= fun s => [].foldlM _ s) = x from bind_pure] at heach
      exact rel_imp heach fun _ _ h => h.of_modifyAttrs
    · have hempty : ¬ ({} : Dictionary Nat).size > 1 := by decide
      have hchildren : (s.modifyAttrs id
          (·.modifyOptions (·.set "len" (toString elements.length)))).children id =
            ([] : List NodeId).reverse := hready₁.children_eq
      have hprobe := rel_probe hv hready₁ hbusy₁ hroot elements (hready₁.open hholds₁)
        hchildren hempty
      rw [Content.outline]
      generalize probe visit id elements [] {} _ = x at hprobe
      generalize Outline.gather _ elements {} = y at hprobe
      cases hprobe with
      | none => exact .none
      | some hab =>
          rw [List.nil_append] at hab
          exact .some hab.of_modifyAttrs

theorem rel_visitRecord (hv : Implements visit derive above) (hready : s.Ready id a top)
    (hbusy : s.Busy id busy) (hholds : s.Holds R busy) (hroot : a.isRoot = false)
    (fields : List (Field Value)) :
    Option.Rel (fun s' o => Visited s s' id busy o.tree (recordAll R o.finished))
      (s.visitRecord visit id fields)
      (((Shape.record fields).content a).outline derive top above) := by
  dsimp only [visitRecord, Shape.content]
  rw [hasFailed_eq hready]
  split
  · exact .some (hready.visited hholds)
  · split
    · exact rel_leaf hready hbusy hholds _
    · by_cases hexported : (fields.filter (·.exported)).isEmpty
      · rw [if_pos hexported, List.isEmpty_iff.mp hexported]
        exact rel_leaf hready hbusy hholds _
      · have heach := rel_each hv hready hbusy hholds hroot
          ((fields.filter (·.exported)).map fun f => (fieldAttributes f, f.value))
        rw [List.foldlM_map] at heach
        simp only [if_neg hexported]
        rw [show ∀ x : Option Schema, (x >>= fun s => some s) = x from bind_pure]
        exact heach

theorem rel_visitMap (hv : Implements visit derive above) (hready : s.Ready id a top)
    (hbusy : s.Busy id busy) (hholds : s.Holds R busy) (hroot : a.isRoot = false) (key : Kind)
    (keyType : String) (entries : List (String × Value)) :
    Option.Rel (fun s' o => Visited s s' id busy o.tree (recordAll R o.finished))
      (s.visitMap visit id key keyType entries)
      (((Shape.map key keyType entries).content a).outline derive top above) := by
  rw [visitMap, Shape.content, hasFailed_eq hready]
  split
  · exact .some (hready.visited hholds)
  · split
    · exact rel_leaf hready hbusy hholds _
    · split
      · exact rel_leaf hready hbusy hholds _
      · have heach := rel_each hv hready hbusy hholds hroot
          ((members entries).map fun m => (m.attributes, m.value))
        rw [List.foldlM_map] at heach
        exact heach

theorem rel_visitPointer (hv : Implements visit derive above) (hready : s.Ready id a top)
    (hbusy : s.Busy id busy) (hholds : s.Holds R busy) (target : Option Value) (zero : Value) :
    Option.Rel (fun s' o => Visited s s' id busy o.tree (recordAll R o.finished))
      (s.visitPointer visit id target zero)
      (((Shape.pointer target zero).content a).outline derive top above) := by
  have hne : s.typeRefs ≠ id := Nat.ne_of_lt hready.typeRefs_lt
  have hready₁ := hready.modifyAttrs (·.modifyOptions (·.setBool "is_nil" target.isNone))
  have hholds₁ := hholds.modifyAttrs hbusy.self hready.sound hne
    (·.modifyOptions (·.setBool "is_nil" target.isNone))
  have hbusy₁ := hbusy.modifyAttrs (·.modifyOptions (·.setBool "is_nil" target.isNone))
  dsimp only [visitPointer, Shape.content]
  rw [hasFailed_eq hready₁]
  split
  · exact rel_leaf hready hbusy hholds _
  · have hsame := rel_same hv hready₁ hbusy₁ hholds₁ (fun a => { a with nullable := true })
      (target.getD zero)
    exact rel_imp hsame fun _ _ h => h.of_modifyAttrs

/-- What follows the head of a level is what the outline says. -/
theorem rel_visitMembers (hv : Implements visit derive above) (hready : s.Ready id a top)
    (hbusy : s.Busy id busy) (hholds : s.Holds R busy) (hroot : a.isRoot = false)
    (shape : Shape Value) :
    Option.Rel (fun s' o => Visited s s' id busy o.tree (recordAll R o.finished))
      (s.visitMembers visit id shape) ((shape.content a).outline derive top above) := by
  cases shape with
  | scalar kind => exact rel_leaf hready hbusy hholds _
  | list fixed elements zero =>
      exact rel_visitList hv hready hbusy hholds hroot fixed elements zero
  | record fields => exact rel_visitRecord hv hready hbusy hholds hroot fields
  | map key keyType entries =>
      exact rel_visitMap hv hready hbusy hholds hroot key keyType entries
  | slot target =>
      cases target with
      | none => exact rel_leaf hready hbusy hholds _
      | some v => exact rel_same hv hready hbusy hholds (fun a => { a with nullable := true }) v
  | pointer target zero => exact rel_visitPointer hv hready hbusy hholds target zero
  | nil => exact .some (hready.visited hholds)

/-- A finished level is registered. -/
theorem Visited.register? {t : Rose Attributes} (h : Visited s s' id busy t R)
    (hready : s.Ready id a top) (hbusy : s.Busy id busy)
    (hsettled : ∀ b ∈ Rose.preorderAll t.children, Settled R b) :
    ∃ s'', s'.register? id = some s'' ∧ Visited s s'' id busy t (record R t) := by
  have htop : s'.typeRefs = s.typeRefs := h.grows.typeRefs_eq
  have hrefs : s'.typeRefs < id := htop ▸ hready.typeRefs_lt
  obtain ⟨s'', hs'', hsound, hgrows, hholds⟩ := register?_of_shows h.sound h.shows h.holds
    (fun k hk => Nat.lt_of_lt_of_le (hbusy.lt_size k hk) h.grows.size_le)
    (htop ▸ hbusy.typeRefs) hsettled
  refine ⟨s'', hs'', hsound, ?_, ?_, ?_, hholds⟩
  · exact h.grows.trans hgrows fun k _ hk => .inr (hk.trans htop)
  · rw [← h.parent?_eq]
    exact parent?_congr (hgrows.node?_eq id h.shows.lt (Nat.ne_of_gt hrefs))
  · refine (h.shows.frame (hgrows.agree (Nat.le_refl _) fun k hk _ => ?_)).mono (Nat.le_refl _)
      hgrows.size_le
    exact Nat.ne_of_gt (Nat.lt_of_lt_of_le hrefs hk)

end Members

/-! ## The walk -/

section Walk

variable {types : Types} {v : Value} {l : Layer} {names : Names} {b : Attributes} {depth : Nat}

theorem visit_of_refused (hl : v.layer? types = some l)
    (h : (s.attrs id).enter (s.underRoot id) names l = (b, none)) :
    visit types (depth + 1) names id v s = some (s.modifyAttrs id fun _ => b) := by
  simp only [visit, hl, h, Option.bind_eq_bind, Option.bind_some]

theorem visit_of_enters {inner : Names} (hl : v.layer? types = some l)
    (h : (s.attrs id).enter (s.underRoot id) names l = (b, some inner)) :
    visit types (depth + 1) names id v s =
      ((s.modifyAttrs id fun _ => b).visitMembers (visit types depth inner) id l.shape).bind
        (·.register? id) := by
  simp only [visit, hl, h, Option.bind_eq_bind, Option.bind_some]

/-- Visiting a value in the arena does what its outline says, to any depth. -/
theorem implements_visit (types : Types) (depth : Nat) : ∀ {names : Names} {above : Finset String},
    (∀ n, names.contains n = true ↔ n ∈ above) →
      Implements (visit types depth names) (outline types depth) above := by
  induction depth with
  | zero => exact fun _ _ _ _ _ _ _ _ _ _ _ => .none
  | succ depth ih =>
      intro names above hnames s id a top R busy v hready hbusy hholds
      cases hl : v.layer? types with
      | none =>
          have hvisit : visit types (depth + 1) names id v s = none := by
            simp only [visit, hl, Option.bind_eq_bind, Option.bind_none]
          have houtline : outline types (depth + 1) ⟨a, top, above, v⟩ = none := by
            simp only [outline, hl, Option.bind_eq_bind, Option.bind_none]
          rw [hvisit, houtline]
          exact .none
      | some l =>
          obtain ⟨hhead, hinner⟩ := Attributes.enter_eq hnames a top l
          by_cases hr : ∃ name, l.ruling top above = .enters name
          case neg =>
            have hr' := fun name hn => hr ⟨name, hn⟩
            have hnone : (a.enter top names l).2 = none := by
              cases h : l.ruling top above with
              | enters name => exact absurd h (hr' name)
              | _ => rw [h] at hinner; exact hinner
            have henter : (s.attrs id).enter (s.underRoot id) names l =
                (a.head l.shape.kind (l.ruling top above), none) := by
              rw [hready.attrs_eq, hready.underRoot_eq, ← hhead, ← hnone]
            rw [visit_of_refused hl henter, outline_of_refused hl hr']
            exact rel_leaf hready hbusy hholds fun _ => a.head l.shape.kind (l.ruling top above)
          case pos =>
            obtain ⟨name, hr⟩ := hr
            rw [hr] at hhead hinner
            obtain ⟨inner, hinner, hnames'⟩ := hinner
            have henter : (s.attrs id).enter (s.underRoot id) names l =
                (a.head l.shape.kind (.enters name), some inner) := by
              rw [hready.attrs_eq, hready.underRoot_eq, ← hhead, ← hinner]
            have hne : s.typeRefs ≠ id := Nat.ne_of_lt hready.typeRefs_lt
            have hready' := hready.modifyAttrs fun _ => a.head l.shape.kind (.enters name)
            have hbusy' := hbusy.modifyAttrs fun _ => a.head l.shape.kind (.enters name)
            have hmembers := rel_visitMembers (ih hnames') hready' hbusy'
              (hholds.modifyAttrs hbusy.self hready.sound hne _)
              (isRoot_head a l.shape.kind (.enters name)) l.shape
            rw [visit_of_enters hl henter, outline_of_enters hl hr, Option.map_eq_bind]
            refine rel_bind hmembers fun s' o ho hvisited => ?_
            have hsettled := SettlesBelow.content (settled_of_outline types depth) ho R
            obtain ⟨s'', hs'', hfinal⟩ := hvisited.register? hready' hbusy' hsettled
            rw [hs'']
            refine .some ?_
            show Visited s s'' id busy o.tree (recordAll R (o.finished ++ [⟨_, l, o.tree⟩]))
            rw [recordAll_append]
            exact hfinal.of_modifyAttrs

end Walk

end Schema

end TypeOutline
