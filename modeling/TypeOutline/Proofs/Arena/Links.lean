import TypeOutline.Schema.Basic
import Mathlib.Data.List.Nodup

/-!
# Links between the nodes of an arena

What each operation on an arena does to the attributes, the parent and the
children of a node, and the ownership law that all of them keep: a node
is in the child list of its parent and in no other, once, and the two
tops have no parent (`Linked`).

An arena that only ever grows below its last nodes has one more property
(`Sound`): a parent is older than its children, so the ids themselves
rule out that a node stands below itself.
-/

namespace TypeOutline

namespace Schema

variable {s : Schema}

/-! ## Nodes inside and outside of the arena -/

theorem lt_size_iff {k : NodeId} : k < s.nodes.size ↔ ∃ n, s.node? k = some n := by
  constructor
  · intro h
    exact ⟨_, Array.getElem?_eq_getElem h⟩
  · rintro ⟨n, hn⟩
    exact (Array.getElem?_eq_some_iff.mp hn).1

theorem node?_eq_none {k : NodeId} (h : s.nodes.size ≤ k) : s.node? k = none :=
  Array.getElem?_eq_none h

theorem lt_size_of_mem_children {p c : NodeId} (h : c ∈ s.children p) : p < s.nodes.size := by
  rcases Nat.lt_or_ge p s.nodes.size with hp | hp
  · exact hp
  · rw [children, node?_eq_none hp] at h
    exact absurd h List.not_mem_nil

theorem lt_size_of_parent? {p c : NodeId} (h : s.parent? c = some p) : c < s.nodes.size := by
  rcases Nat.lt_or_ge c s.nodes.size with hc | hc
  · exact hc
  · rw [parent?, node?_eq_none hc] at h
    exact absurd h (by simp)

/-- What a node says and how it is linked depends on the node alone. -/
theorem attrs_congr {t : Schema} {k : NodeId} (h : t.node? k = s.node? k) :
    t.attrs k = s.attrs k := by
  rw [attrs, attrs, h]

theorem children_congr {t : Schema} {k : NodeId} (h : t.node? k = s.node? k) :
    t.children k = s.children k := by
  rw [children, children, h]

theorem parent?_congr {t : Schema} {k : NodeId} (h : t.node? k = s.node? k) :
    t.parent? k = s.parent? k := by
  rw [parent?, parent?, h]

/-! ## Changing one node -/

@[simp] theorem size_modify (s : Schema) (id : NodeId) (f : Node → Node) :
    (s.modify id f).nodes.size = s.nodes.size :=
  Array.size_modify

theorem attrs_modify {f : Node → Node} (hf : ∀ n, (f n).toAttributes = n.toAttributes)
    (id k : NodeId) : (s.modify id f).attrs k = s.attrs k := by
  unfold attrs
  rw [node?_modify]
  split
  · cases s.node? k with
    | none => rfl
    | some n => exact hf n
  · rfl

theorem parent?_modify {f : Node → Node} (hf : ∀ n, (f n).parent = n.parent)
    (id k : NodeId) : (s.modify id f).parent? k = s.parent? k := by
  unfold parent?
  rw [node?_modify]
  split
  · cases s.node? k with
    | none => rfl
    | some n => exact hf n
  · rfl

theorem children_modify {f : Node → Node} (hf : ∀ n, (f n).children = n.children)
    (id k : NodeId) : (s.modify id f).children k = s.children k := by
  unfold children
  rw [node?_modify]
  split
  · cases s.node? k with
    | none => rfl
    | some n => exact hf n
  · rfl

@[simp] theorem size_modifyAttrs (s : Schema) (id : NodeId) (f : Attributes → Attributes) :
    (s.modifyAttrs id f).nodes.size = s.nodes.size :=
  size_modify s id _

@[simp] theorem root_modifyAttrs (s : Schema) (id : NodeId) (f : Attributes → Attributes) :
    (s.modifyAttrs id f).root = s.root := rfl

@[simp] theorem typeRefs_modifyAttrs (s : Schema) (id : NodeId) (f : Attributes → Attributes) :
    (s.modifyAttrs id f).typeRefs = s.typeRefs := rfl

@[simp] theorem parent?_modifyAttrs (s : Schema) (id : NodeId) (f : Attributes → Attributes)
    (k : NodeId) : (s.modifyAttrs id f).parent? k = s.parent? k := by
  rw [modifyAttrs, parent?_modify]
  exact fun _ => rfl

@[simp] theorem children_modifyAttrs (s : Schema) (id : NodeId) (f : Attributes → Attributes)
    (k : NodeId) : (s.modifyAttrs id f).children k = s.children k := by
  rw [modifyAttrs, children_modify]
  exact fun _ => rfl

theorem attrs_modifyAttrs_self {id : NodeId} (h : id < s.nodes.size)
    (f : Attributes → Attributes) : (s.modifyAttrs id f).attrs id = f (s.attrs id) := by
  obtain ⟨n, hn⟩ := lt_size_iff.mp h
  simp [attrs, modifyAttrs, hn]

theorem node?_modify_of_ne {id k : NodeId} (h : k ≠ id) (f : Node → Node) :
    (s.modify id f).node? k = s.node? k := by
  rw [node?_modify, if_neg (Ne.symm h)]

theorem node?_modifyAttrs_of_ne {id k : NodeId} (h : k ≠ id) (f : Attributes → Attributes) :
    (s.modifyAttrs id f).node? k = s.node? k :=
  node?_modify_of_ne h _

/-! ## Adding a node -/

@[simp] theorem size_alloc (s : Schema) (a : Attributes) :
    (s.alloc a).nodes.size = s.nodes.size + 1 :=
  Array.size_push ..

@[simp] theorem root_alloc (s : Schema) (a : Attributes) : (s.alloc a).root = s.root := rfl

@[simp] theorem typeRefs_alloc (s : Schema) (a : Attributes) :
    (s.alloc a).typeRefs = s.typeRefs := rfl

theorem node?_alloc_self (s : Schema) (a : Attributes) :
    (s.alloc a).node? s.nodes.size = some { a with id := s.nodes.size } :=
  (node?_alloc s a s.nodes.size).trans (if_pos rfl)

theorem node?_alloc_of_ne (a : Attributes) {k : NodeId} (h : k ≠ s.nodes.size) :
    (s.alloc a).node? k = s.node? k :=
  (node?_alloc s a k).trans (if_neg h)

@[simp] theorem children_alloc (s : Schema) (a : Attributes) (k : NodeId) :
    (s.alloc a).children k = s.children k := by
  by_cases h : k = s.nodes.size
  · subst h
    rw [children, children, node?_alloc_self, node?_eq_none (Nat.le_refl _)]
    rfl
  · exact children_congr (node?_alloc_of_ne a h)

@[simp] theorem parent?_alloc (s : Schema) (a : Attributes) (k : NodeId) :
    (s.alloc a).parent? k = s.parent? k := by
  by_cases h : k = s.nodes.size
  · subst h
    rw [parent?, parent?, node?_alloc_self, node?_eq_none (Nat.le_refl _)]
    rfl
  · exact parent?_congr (node?_alloc_of_ne a h)

theorem attrs_alloc_self (s : Schema) (a : Attributes) : (s.alloc a).attrs s.nodes.size = a := by
  rw [attrs, node?_alloc_self]
  rfl

/-! ## Linking and unlinking -/

@[simp] theorem size_attach (s : Schema) (p c : NodeId) :
    (s.attach p c).nodes.size = s.nodes.size := by
  simp [attach]

@[simp] theorem root_attach (s : Schema) (p c : NodeId) : (s.attach p c).root = s.root := rfl

@[simp] theorem typeRefs_attach (s : Schema) (p c : NodeId) :
    (s.attach p c).typeRefs = s.typeRefs := rfl

@[simp] theorem attrs_attach (s : Schema) (p c k : NodeId) :
    (s.attach p c).attrs k = s.attrs k := by
  rw [attach, attrs_modify, attrs_modify] <;> exact fun _ => rfl

theorem parent?_attach {c : NodeId} (hc : c < s.nodes.size) (p k : NodeId) :
    (s.attach p c).parent? k = if k = c then some p else s.parent? k := by
  rw [attach, parent?_modify (by exact fun _ => rfl), parent?, node?_modify]
  by_cases h : k = c
  · subst h
    obtain ⟨n, hn⟩ := lt_size_iff.mp hc
    simp [hn]
  · rw [if_neg (Ne.symm h), if_neg h]
    rfl

theorem children_attach {p : NodeId} (hp : p < s.nodes.size) (c k : NodeId) :
    (s.attach p c).children k = if k = p then s.children p ++ [c] else s.children k := by
  have hrest : ∀ k, (s.modify c fun n => { n with parent := some p }).children k = s.children k :=
    children_modify (by exact fun _ => rfl) c
  rw [attach, children, node?_modify]
  by_cases h : k = p
  · subst h
    have hk : k < (s.modify c fun n => { n with parent := some k }).nodes.size := by simpa using hp
    obtain ⟨n, hn⟩ := lt_size_iff.mp hk
    have hch := hrest k
    rw [children, hn] at hch
    rw [if_pos rfl, if_pos rfl, hn, ← hch]
    rfl
  · rw [if_neg (Ne.symm h), if_neg h]
    exact hrest k

theorem node?_attach_of_ne {p c k : NodeId} (hp : k ≠ p) (hc : k ≠ c) :
    (s.attach p c).node? k = s.node? k := by
  rw [attach, node?_modify_of_ne hp, node?_modify_of_ne hc]

/-- A node without a parent is moved by linking it. -/
theorem addChild_of_parent?_none {c : NodeId} (hc : c < s.nodes.size) (h : s.parent? c = none)
    (p : NodeId) : s.addChild p c = s.attach p c := by
  obtain ⟨n, hn⟩ := lt_size_iff.mp hc
  rw [parent?, hn] at h
  have hpar : n.parent = none := h
  rw [addChild, hn]
  simp only [hpar]

@[simp] theorem size_removeChild (s : Schema) (p c : NodeId) :
    (s.removeChild p c).nodes.size = s.nodes.size := by
  unfold removeChild
  split <;> simp

@[simp] theorem root_removeChild (s : Schema) (p c : NodeId) :
    (s.removeChild p c).root = s.root := by
  unfold removeChild
  split <;> rfl

@[simp] theorem typeRefs_removeChild (s : Schema) (p c : NodeId) :
    (s.removeChild p c).typeRefs = s.typeRefs := by
  unfold removeChild
  split <;> rfl

@[simp] theorem attrs_removeChild (s : Schema) (p c k : NodeId) :
    (s.removeChild p c).attrs k = s.attrs k := by
  unfold removeChild
  split
  · rw [attrs_modify, attrs_modify] <;> exact fun _ => rfl
  · rfl

theorem children_removeChild (s : Schema) (p c k : NodeId) :
    (s.removeChild p c).children k = if k = p then (s.children p).erase c else s.children k := by
  unfold removeChild
  split
  · rename_i hc
    have hp : p < s.nodes.size := lt_size_of_mem_children (List.contains_iff_mem.mp hc)
    obtain ⟨n, hn⟩ := lt_size_iff.mp hp
    rw [children_modify (by exact fun _ => rfl), children, node?_modify]
    by_cases h : k = p
    · subst h
      rw [if_pos rfl, if_pos rfl, children, hn]
      rfl
    · rw [if_neg (Ne.symm h), if_neg h]
      rfl
  · rename_i hc
    split
    · rename_i h
      rw [h, List.erase_of_not_mem fun hm => hc (List.contains_iff_mem.mpr hm)]
    · rfl

theorem parent?_removeChild_of_mem {p c : NodeId} (h : c ∈ s.children p) (k : NodeId) :
    (s.removeChild p c).parent? k = if k = c then none else s.parent? k := by
  rw [removeChild, if_pos (List.contains_iff_mem.mpr h), parent?, node?_modify]
  have hrest : (s.modify p fun n => { n with children := n.children.erase c }).parent? k
      = s.parent? k := parent?_modify (by exact fun _ => rfl) p k
  by_cases hk : k = c
  · subst hk
    rw [if_pos rfl, if_pos rfl]
    cases (s.modify p fun n => { n with children := n.children.erase k }).node? k <;> rfl
  · rw [if_neg (Ne.symm hk), if_neg hk]
    exact hrest

theorem parent?_removeChild_of_ne {c k : NodeId} (hk : k ≠ c) (p : NodeId) :
    (s.removeChild p c).parent? k = s.parent? k := by
  by_cases h : c ∈ s.children p
  · rw [parent?_removeChild_of_mem h, if_neg hk]
  · rw [removeChild, if_neg fun hm => h (List.contains_iff_mem.mp hm)]

theorem node?_removeChild_of_ne {p c k : NodeId} (hp : k ≠ p) (hc : k ≠ c) :
    (s.removeChild p c).node? k = s.node? k := by
  unfold removeChild
  split
  · rw [node?_modify_of_ne hc, node?_modify_of_ne hp]
  · rfl

/-! ## Emptying a list of children -/

/-- Nodes lose their parents. -/
def orphan (s : Schema) (cs : List NodeId) : Schema :=
  cs.foldl (fun s c => s.modify c fun n => { n with parent := none }) s

@[simp] theorem size_orphan (s : Schema) (cs : List NodeId) :
    (s.orphan cs).nodes.size = s.nodes.size := by
  induction cs generalizing s with
  | nil => rfl
  | cons c cs ih => exact (ih _).trans (size_modify ..)

@[simp] theorem root_orphan (s : Schema) (cs : List NodeId) : (s.orphan cs).root = s.root := by
  induction cs generalizing s with
  | nil => rfl
  | cons c cs ih => exact ih _

@[simp] theorem typeRefs_orphan (s : Schema) (cs : List NodeId) :
    (s.orphan cs).typeRefs = s.typeRefs := by
  induction cs generalizing s with
  | nil => rfl
  | cons c cs ih => exact ih _

@[simp] theorem attrs_orphan (s : Schema) (cs : List NodeId) (k : NodeId) :
    (s.orphan cs).attrs k = s.attrs k := by
  induction cs generalizing s with
  | nil => rfl
  | cons c cs ih => exact (ih _).trans (attrs_modify (by exact fun _ => rfl) c k)

@[simp] theorem children_orphan (s : Schema) (cs : List NodeId) (k : NodeId) :
    (s.orphan cs).children k = s.children k := by
  induction cs generalizing s with
  | nil => rfl
  | cons c cs ih => exact (ih _).trans (children_modify (by exact fun _ => rfl) c k)

theorem node?_orphan {cs : List NodeId} {k : NodeId} (hk : k ∉ cs) (s : Schema) :
    (s.orphan cs).node? k = s.node? k := by
  induction cs generalizing s with
  | nil => rfl
  | cons c cs ih =>
      rw [List.mem_cons, not_or] at hk
      exact (ih hk.2 _).trans (node?_modify_of_ne hk.1 _)

theorem parent?_orphan (s : Schema) (cs : List NodeId) (k : NodeId) :
    (s.orphan cs).parent? k = if k ∈ cs then none else s.parent? k := by
  induction cs generalizing s with
  | nil => rfl
  | cons c cs ih =>
      refine (ih _).trans ?_
      by_cases hk : k ∈ cs
      · rw [if_pos hk, if_pos (List.mem_cons_of_mem c hk)]
      · by_cases hc : k = c
        · subst hc
          rw [if_neg hk, if_pos List.mem_cons_self, parent?, node?_modify, if_pos rfl]
          cases s.node? k <;> rfl
        · rw [if_neg hk, if_neg (by simp [hc, hk])]
          exact parent?_congr (node?_modify_of_ne hc _)

theorem removeAllChildren_eq (s : Schema) (id : NodeId) : s.removeAllChildren id =
    (s.modify id fun n => { n with children := [] }).orphan (s.children id) := rfl

@[simp] theorem size_removeAllChildren (s : Schema) (id : NodeId) :
    (s.removeAllChildren id).nodes.size = s.nodes.size := by
  rw [removeAllChildren_eq, size_orphan, size_modify]

@[simp] theorem root_removeAllChildren (s : Schema) (id : NodeId) :
    (s.removeAllChildren id).root = s.root :=
  root_orphan _ _

@[simp] theorem typeRefs_removeAllChildren (s : Schema) (id : NodeId) :
    (s.removeAllChildren id).typeRefs = s.typeRefs :=
  typeRefs_orphan _ _

@[simp] theorem attrs_removeAllChildren (s : Schema) (id k : NodeId) :
    (s.removeAllChildren id).attrs k = s.attrs k := by
  rw [removeAllChildren_eq, attrs_orphan, attrs_modify]
  exact fun _ => rfl

theorem children_removeAllChildren (s : Schema) (id k : NodeId) :
    (s.removeAllChildren id).children k = if k = id then [] else s.children k := by
  rw [removeAllChildren_eq, children_orphan]
  by_cases hk : k = id
  · subst hk
    rw [if_pos rfl, children, node?_modify, if_pos rfl]
    cases s.node? k <;> rfl
  · rw [if_neg hk]
    exact children_congr (node?_modify_of_ne hk _)

theorem parent?_removeAllChildren (s : Schema) (id k : NodeId) :
    (s.removeAllChildren id).parent? k = if k ∈ s.children id then none else s.parent? k := by
  rw [removeAllChildren_eq, parent?_orphan, parent?_modify]
  exact fun _ => rfl

theorem node?_removeAllChildren {id k : NodeId} (hk : k ≠ id) (hc : k ∉ s.children id) :
    (s.removeAllChildren id).node? k = s.node? k := by
  rw [removeAllChildren_eq, node?_orphan hc, node?_modify_of_ne hk]

end Schema

end TypeOutline
