import TypeOutline.Proofs.Arena.Links

/-!
# Ownership in the arena

`Linked` is the ownership law: every node knows its own index, is in the
child list of its parent and in no other, and in that one once; the two
tops are different nodes of the arena without a parent. It is stated on
`children` and `parent?` alone, so each operation keeps it by what it does
to these two.

`Sound` adds what holds while a schema is being grown, that a parent is
older than its children. It is what makes the trees of the arena finite
without a search for cycles.
-/

namespace TypeOutline

namespace Schema

/-- The ownership law. -/
structure Linked (s : Schema) : Prop where
  id_eq : ∀ {k n}, s.node? k = some n → n.id = k
  mem_children_iff : ∀ {p c}, c ∈ s.children p ↔ s.parent? c = some p
  nodup_children : ∀ p, (s.children p).Nodup
  root_lt : s.root < s.nodes.size
  typeRefs_lt : s.typeRefs < s.nodes.size
  root_ne_typeRefs : s.root ≠ s.typeRefs
  parent?_root : s.parent? s.root = none
  parent?_typeRefs : s.parent? s.typeRefs = none

/-- The ownership law in an arena whose parents are older than their children. -/
structure Sound (s : Schema) : Prop extends Linked s where
  lt_of_mem_children : ∀ {p c}, c ∈ s.children p → p < c

variable {s : Schema}

namespace Linked

theorem lt_size_of_mem (h : s.Linked) {p c : NodeId} (hc : c ∈ s.children p) :
    c < s.nodes.size :=
  lt_size_of_parent? (h.mem_children_iff.mp hc)

theorem not_mem_of_parent?_none (h : s.Linked) {c : NodeId} (hc : s.parent? c = none)
    (p : NodeId) : c ∉ s.children p := by
  intro hm
  rw [h.mem_children_iff.mp hm] at hc
  cases hc

/-- A node is in one child list only. -/
theorem parent_unique (h : s.Linked) {p q c : NodeId} (hp : c ∈ s.children p)
    (hq : c ∈ s.children q) : p = q :=
  Option.some.inj ((h.mem_children_iff.mp hp).symm.trans (h.mem_children_iff.mp hq))

end Linked

/-! ## The empty schema -/

theorem children_empty (k : NodeId) : empty.children k = [] := by
  match k with
  | 0 => rfl
  | 1 => rfl
  | k + 2 =>
      rw [children, node?_eq_none (Nat.le_add_left 2 k)]
      rfl

theorem parent?_empty (k : NodeId) : empty.parent? k = none := by
  match k with
  | 0 => rfl
  | 1 => rfl
  | k + 2 =>
      rw [parent?, node?_eq_none (Nat.le_add_left 2 k)]
      rfl

theorem sound_empty : empty.Sound where
  id_eq {k n} h := by
    match k with
    | 0 => cases h; rfl
    | 1 => cases h; rfl
    | k + 2 => rw [node?_eq_none (Nat.le_add_left 2 k)] at h; cases h
  mem_children_iff {p c} := by
    rw [children_empty, parent?_empty]
    simp
  nodup_children p := by
    rw [children_empty]
    exact List.nodup_nil
  root_lt := by decide
  typeRefs_lt := by decide
  root_ne_typeRefs := by decide
  parent?_root := rfl
  parent?_typeRefs := rfl
  lt_of_mem_children {p c} h := by
    rw [children_empty] at h
    cases h

/-! ## Attributes do not matter -/

theorem id_eq_modify {f : Node → Node} (hf : ∀ n, (f n).id = n.id)
    (h : ∀ {k n}, s.node? k = some n → n.id = k) (id : NodeId) {k : NodeId} {n : Node}
    (hn : (s.modify id f).node? k = some n) : n.id = k := by
  rw [node?_modify] at hn
  split at hn
  · obtain ⟨m, hm, rfl⟩ := Option.map_eq_some_iff.mp hn
    rw [hf]
    exact h hm
  · exact h hn

theorem Linked.modifyAttrs (h : s.Linked) (id : NodeId) (f : Attributes → Attributes) :
    (s.modifyAttrs id f).Linked where
  id_eq := id_eq_modify (by exact fun _ => rfl) h.id_eq id
  mem_children_iff {p c} := by
    rw [children_modifyAttrs, parent?_modifyAttrs]
    exact h.mem_children_iff
  nodup_children p := by
    rw [children_modifyAttrs]
    exact h.nodup_children p
  root_lt := by simpa using h.root_lt
  typeRefs_lt := by simpa using h.typeRefs_lt
  root_ne_typeRefs := h.root_ne_typeRefs
  parent?_root := by simpa using h.parent?_root
  parent?_typeRefs := by simpa using h.parent?_typeRefs

theorem Sound.modifyAttrs (h : s.Sound) (id : NodeId) (f : Attributes → Attributes) :
    (s.modifyAttrs id f).Sound where
  toLinked := h.toLinked.modifyAttrs id f
  lt_of_mem_children {p c} hc := by
    rw [children_modifyAttrs] at hc
    exact h.lt_of_mem_children hc

/-! ## New nodes -/

theorem Linked.alloc (h : s.Linked) (a : Attributes) : (s.alloc a).Linked where
  id_eq {k n} hn := by
    by_cases hk : k = s.nodes.size
    · subst hk
      rw [node?_alloc_self] at hn
      cases hn
      rfl
    · rw [node?_alloc_of_ne a hk] at hn
      exact h.id_eq hn
  mem_children_iff {p c} := by
    rw [children_alloc, parent?_alloc]
    exact h.mem_children_iff
  nodup_children p := by
    rw [children_alloc]
    exact h.nodup_children p
  root_lt := by
    rw [size_alloc]
    exact Nat.lt_succ_of_lt h.root_lt
  typeRefs_lt := by
    rw [size_alloc]
    exact Nat.lt_succ_of_lt h.typeRefs_lt
  root_ne_typeRefs := h.root_ne_typeRefs
  parent?_root := by simpa using h.parent?_root
  parent?_typeRefs := by simpa using h.parent?_typeRefs

theorem Sound.alloc (h : s.Sound) (a : Attributes) : (s.alloc a).Sound where
  toLinked := h.toLinked.alloc a
  lt_of_mem_children {p c} hc := by
    rw [children_alloc] at hc
    exact h.lt_of_mem_children hc

/-! ## Linking and unlinking -/

/-- Linking a node that has no parent and is no top keeps the law. -/
theorem Linked.attach (h : s.Linked) {p c : NodeId} (hp : p < s.nodes.size)
    (hc : c < s.nodes.size) (hpar : s.parent? c = none) (hroot : c ≠ s.root)
    (htop : c ≠ s.typeRefs) : (s.attach p c).Linked where
  id_eq := id_eq_modify (by exact fun _ => rfl) (id_eq_modify (by exact fun _ => rfl) h.id_eq c) p
  mem_children_iff {q d} := by
    rw [children_attach hp, parent?_attach hc]
    have hnot := h.not_mem_of_parent?_none hpar
    by_cases hd : d = c
    · subst hd
      rw [if_pos rfl]
      by_cases hq : q = p
      · simp [hq]
      · rw [if_neg hq]
        exact ⟨fun hm => absurd hm (hnot q), fun he => absurd (Option.some.inj he).symm hq⟩
    · rw [if_neg hd, ← h.mem_children_iff]
      by_cases hq : q = p
      · simp [hq, hd]
      · rw [if_neg hq]
  nodup_children q := by
    rw [children_attach hp]
    split
    · rw [List.nodup_append_comm]
      exact List.nodup_cons.mpr ⟨h.not_mem_of_parent?_none hpar p, h.nodup_children p⟩
    · exact h.nodup_children q
  root_lt := by simpa using h.root_lt
  typeRefs_lt := by simpa using h.typeRefs_lt
  root_ne_typeRefs := h.root_ne_typeRefs
  parent?_root := by
    rw [parent?_attach hc, root_attach, if_neg (Ne.symm hroot)]
    exact h.parent?_root
  parent?_typeRefs := by
    rw [parent?_attach hc, typeRefs_attach, if_neg (Ne.symm htop)]
    exact h.parent?_typeRefs

theorem Sound.attach (h : s.Sound) {p c : NodeId} (hpc : p < c) (hc : c < s.nodes.size)
    (hpar : s.parent? c = none) (hroot : c ≠ s.root) (htop : c ≠ s.typeRefs) :
    (s.attach p c).Sound where
  toLinked := h.toLinked.attach (Nat.lt_trans hpc hc) hc hpar hroot htop
  lt_of_mem_children {q d} hd := by
    rw [children_attach (Nat.lt_trans hpc hc)] at hd
    split at hd
    · rename_i hq
      subst hq
      rcases List.mem_append.mp hd with hd | hd
      · exact h.lt_of_mem_children hd
      · rw [List.mem_singleton.mp hd]
        exact hpc
    · exact h.lt_of_mem_children hd

theorem Linked.removeChild (h : s.Linked) (p c : NodeId) : (s.removeChild p c).Linked := by
  by_cases hc : c ∈ s.children p
  case neg =>
    rw [Schema.removeChild, if_neg fun hm => hc (List.contains_iff_mem.mp hm)]
    exact h
  case pos =>
    have hparent := parent?_removeChild_of_mem hc
    refine
      { id_eq := ?_, mem_children_iff := ?_, nodup_children := ?_, root_lt := ?_,
        typeRefs_lt := ?_, root_ne_typeRefs := ?_, parent?_root := ?_, parent?_typeRefs := ?_ }
    · intro k n hn
      rw [Schema.removeChild, if_pos (List.contains_iff_mem.mpr hc)] at hn
      exact id_eq_modify (by exact fun _ => rfl)
        (id_eq_modify (by exact fun _ => rfl) h.id_eq p) c hn
    · intro q d
      rw [children_removeChild, hparent]
      by_cases hd : d = c
      · subst hd
        rw [if_pos rfl]
        by_cases hq : q = p
        · subst hq
          simp [(h.nodup_children q).mem_erase_iff]
        · rw [if_neg hq]
          exact ⟨fun hm => absurd (h.parent_unique hm hc) hq, fun he => by cases he⟩
      · rw [if_neg hd, ← h.mem_children_iff]
        by_cases hq : q = p
        · subst hq
          rw [if_pos rfl, List.mem_erase_of_ne hd]
        · rw [if_neg hq]
    · intro q
      rw [children_removeChild]
      split
      · exact (h.nodup_children p).erase c
      · exact h.nodup_children q
    · simpa using h.root_lt
    · simpa using h.typeRefs_lt
    · simpa using h.root_ne_typeRefs
    · rw [hparent, root_removeChild, h.parent?_root]
      exact ite_self none
    · rw [hparent, typeRefs_removeChild, h.parent?_typeRefs]
      exact ite_self none

theorem Sound.removeChild (h : s.Sound) (p c : NodeId) : (s.removeChild p c).Sound where
  toLinked := h.toLinked.removeChild p c
  lt_of_mem_children {q d} hd := by
    rw [children_removeChild] at hd
    split at hd
    · rename_i hq
      subst hq
      exact h.lt_of_mem_children (List.mem_of_mem_erase hd)
    · exact h.lt_of_mem_children hd

theorem id_eq_orphan : ∀ (cs : List NodeId) {s : Schema},
    (∀ {k n}, s.node? k = some n → n.id = k) → ∀ {k n},
      (s.orphan cs).node? k = some n → n.id = k
  | [], _, h => h
  | c :: cs, _, h => id_eq_orphan cs (id_eq_modify (by exact fun _ => rfl) h c)

theorem Linked.removeAllChildren (h : s.Linked) (id : NodeId) :
    (s.removeAllChildren id).Linked where
  id_eq := id_eq_orphan _ (id_eq_modify (by exact fun _ => rfl) h.id_eq id)
  mem_children_iff {p c} := by
    rw [children_removeAllChildren, parent?_removeAllChildren]
    by_cases hc : c ∈ s.children id
    · rw [if_pos hc]
      by_cases hp : p = id
      · simp [hp]
      · rw [if_neg hp]
        exact ⟨fun hm => absurd (h.parent_unique hm hc) hp, fun he => nomatch he⟩
    · rw [if_neg hc, ← h.mem_children_iff]
      by_cases hp : p = id
      · subst hp
        simp [hc]
      · rw [if_neg hp]
  nodup_children p := by
    rw [children_removeAllChildren]
    split
    · exact List.nodup_nil
    · exact h.nodup_children p
  root_lt := by simpa using h.root_lt
  typeRefs_lt := by simpa using h.typeRefs_lt
  root_ne_typeRefs := by simpa using h.root_ne_typeRefs
  parent?_root := by
    rw [parent?_removeAllChildren, root_removeAllChildren, h.parent?_root]
    exact ite_self none
  parent?_typeRefs := by
    rw [parent?_removeAllChildren, typeRefs_removeAllChildren, h.parent?_typeRefs]
    exact ite_self none

theorem Sound.removeAllChildren (h : s.Sound) (id : NodeId) : (s.removeAllChildren id).Sound where
  toLinked := h.toLinked.removeAllChildren id
  lt_of_mem_children {p c} hc := by
    rw [children_removeAllChildren] at hc
    split at hc
    · exact absurd hc List.not_mem_nil
    · exact h.lt_of_mem_children hc

end Schema

end TypeOutline
