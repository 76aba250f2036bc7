import TypeOutline.Proofs.Arena.Shown

/-!
# Growing an arena

`Grows s s' touched` is the frame of everything that is done while a
schema is derived: the tops stay where they are, nodes are only added,
and of the old nodes only those in `touched` may change.

The copy of a tree is the first case (`grafted_graft`): it touches no old
node and lies behind all of them.
-/

namespace TypeOutline

namespace Schema

/-- `s'` comes from `s` by adding nodes and changing those in `touched`. -/
structure Grows (s s' : Schema) (touched : Nat → Prop) : Prop where
  root_eq : s'.root = s.root
  typeRefs_eq : s'.typeRefs = s.typeRefs
  size_le : s.nodes.size ≤ s'.nodes.size
  node?_eq : ∀ k, k < s.nodes.size → ¬ touched k → s'.node? k = s.node? k

namespace Grows

variable {s s' s'' : Schema} {P Q : Nat → Prop}

theorem refl (s : Schema) (P : Nat → Prop) : Grows s s P where
  root_eq := rfl
  typeRefs_eq := rfl
  size_le := Nat.le_refl _
  node?_eq _ _ _ := rfl

theorem trans (h : Grows s s' P) (h' : Grows s' s'' Q)
    (hQ : ∀ k, k < s.nodes.size → Q k → P k) : Grows s s'' P where
  root_eq := h'.root_eq.trans h.root_eq
  typeRefs_eq := h'.typeRefs_eq.trans h.typeRefs_eq
  size_le := Nat.le_trans h.size_le h'.size_le
  node?_eq k hk hP := by
    rw [h'.node?_eq k (Nat.lt_of_lt_of_le hk h.size_le) fun hq => hP (hQ k hk hq)]
    exact h.node?_eq k hk hP

theorem mono (h : Grows s s' P) (hPQ : ∀ k, k < s.nodes.size → P k → Q k) : Grows s s' Q :=
  { h with node?_eq := fun k hk hQ => h.node?_eq k hk fun hP => hQ (hPQ k hk hP) }

/-- An interval of old nodes that were not touched. -/
theorem agree (h : Grows s s' P) {lo hi : Nat} (hhi : hi ≤ s.nodes.size)
    (hP : ∀ k, lo ≤ k → k < hi → ¬ P k) : Agree s s' lo hi :=
  .of_node?_eq fun k hlo hlt => h.node?_eq k (Nat.lt_of_lt_of_le hlt hhi) (hP k hlo hlt)

end Grows

variable {s : Schema}

theorem grows_modifyAttrs (s : Schema) (id : NodeId) (f : Attributes → Attributes) :
    Grows s (s.modifyAttrs id f) (· = id) where
  root_eq := rfl
  typeRefs_eq := rfl
  size_le := Nat.le_of_eq (size_modifyAttrs s id f).symm
  node?_eq _ _ hne := node?_modifyAttrs_of_ne hne f

theorem grows_alloc (s : Schema) (a : Attributes) : Grows s (s.alloc a) (fun _ => False) where
  root_eq := rfl
  typeRefs_eq := rfl
  size_le := by simp
  node?_eq _ hk _ := node?_alloc_of_ne a (Nat.ne_of_lt hk)

theorem grows_attach (s : Schema) (p c : NodeId) :
    Grows s (s.attach p c) (fun k => k = p ∨ k = c) where
  root_eq := rfl
  typeRefs_eq := rfl
  size_le := by simp
  node?_eq _ _ hne := node?_attach_of_ne (fun h => hne (.inl h)) (fun h => hne (.inr h))

theorem grows_removeChild (s : Schema) (p c : NodeId) :
    Grows s (s.removeChild p c) (fun k => k = p ∨ k = c) where
  root_eq := root_removeChild s p c
  typeRefs_eq := typeRefs_removeChild s p c
  size_le := by simp
  node?_eq _ _ hne := node?_removeChild_of_ne (fun h => hne (.inl h)) (fun h => hne (.inr h))

/-- Linking the last part of an arena changes no tree in it. -/
theorem agree_attach {p c lo hi : Nat} (hp : p < s.nodes.size) (hlo : p < lo) :
    Agree s (s.attach p c) lo hi := by
  intro k hk _
  refine ⟨attrs_attach s p c k, ?_⟩
  rw [children_attach hp, if_neg (Nat.ne_of_gt (Nat.lt_of_lt_of_le hlo hk))]

/-! ## Copying -/

/-- A tree was added behind the old nodes, with a top that has no parent. -/
structure Grafted (s s' : Schema) (t : Rose Attributes) : Prop where
  linked : s'.Linked
  grows : Grows s s' (fun _ => False)
  parent?_eq : s'.parent? s.nodes.size = none
  parent_lt : ∀ {p c}, s.nodes.size ≤ c → s'.parent? c = some p → p < c
  shows : Shows s' s.nodes.size s'.nodes.size s.nodes.size t

/-- Trees were added behind the old nodes, as the last children of `p`. -/
structure GraftedAll (s s' : Schema) (p : NodeId) (ts : List (Rose Attributes)) : Prop where
  linked : s'.Linked
  grows : Grows s s' (· = p)
  attrs_eq : s'.attrs p = s.attrs p
  parent?_eq : s'.parent? p = s.parent? p
  parent_lt : ∀ {q c}, s.nodes.size ≤ c → s'.parent? c = some q → q < c
  shows : ∃ cs, s'.children p = s.children p ++ cs
    ∧ ShowsAll s' s.nodes.size s'.nodes.size cs ts

theorem Grafted.sound {s' : Schema} {t : Rose Attributes} (h : Grafted s s' t) (hs : s.Sound) :
    s'.Sound where
  toLinked := h.linked
  lt_of_mem_children {p c} hc := by
    have hp := h.linked.mem_children_iff.mp hc
    rcases Nat.lt_or_ge c s.nodes.size with hlt | hle
    · rw [parent?_congr (h.grows.node?_eq c hlt id)] at hp
      exact hs.lt_of_mem_children (hs.mem_children_iff.mpr hp)
    · exact h.parent_lt hle hp

mutual

theorem grafted_graft : (t : Rose Attributes) → ∀ {s : Schema}, s.Linked →
    Grafted s (s.graft t) t
  | .node a ts, s, hs => by
      have hlt : s.nodes.size < (s.alloc a).nodes.size := by simp
      obtain ⟨hlinked, hgrows, hattrs, hparent, hbelow, cs, hcs, hshows⟩ :=
        graftedAll_graftAll ts (hs.alloc a) hlt
      have hsize := hgrows.size_le
      rw [size_alloc] at hsize hshows hbelow
      have hchildren : (s.alloc a).children s.nodes.size = [] := by
        rw [children_alloc, children, node?_eq_none (Nat.le_refl _)]
        rfl
      have hnone : (s.alloc a).parent? s.nodes.size = none := by
        rw [parent?_alloc, parent?, node?_eq_none (Nat.le_refl _)]
        rfl
      show Grafted s ((s.alloc a).graftAll s.nodes.size ts) (.node a ts)
      refine ⟨hlinked, ?_, hparent.trans hnone, fun {p c} hc hp => ?_, Nat.le_refl _, hsize, ?_, ?_⟩
      · exact (grows_alloc s a).trans hgrows fun k hk heq => absurd heq (Nat.ne_of_lt hk)
      · rcases Nat.eq_or_lt_of_le hc with rfl | hc
        · rw [hparent, hnone] at hp
          cases hp
        · exact hbelow hc hp
      · exact hattrs.trans (attrs_alloc_self s a)
      · rw [hchildren, List.nil_append] at hcs
        rw [hcs]
        exact hshows

theorem graftedAll_graftAll : (ts : List (Rose Attributes)) → ∀ {s : Schema} {p : NodeId},
    s.Linked → p < s.nodes.size → GraftedAll s (s.graftAll p ts) p ts
  | [], s, p, hs, _ => by
      refine ⟨hs, .refl s _, rfl, rfl, fun {q c} hc hq => ?_, [], (List.append_nil _).symm,
        Nat.le_refl _⟩
      exact absurd (lt_size_of_parent? hq) (Nat.not_lt_of_le hc)
  | t :: ts, s, p, hs, hp => by
      obtain ⟨hlinked, hgrows, hnone, hbelow, hshows⟩ := grafted_graft t hs
      -- the copy is linked below `p`, which is older than all of it
      have hp' : p < (s.graft t).nodes.size := Nat.lt_of_lt_of_le hp hgrows.size_le
      have htop : s.nodes.size < (s.graft t).nodes.size := hshows.lt
      have hlink : (s.graft t).addChild p s.nextId = (s.graft t).attach p s.nodes.size :=
        addChild_of_parent?_none htop hnone p
      have hroot : s.nodes.size ≠ (s.graft t).root := by
        rw [hgrows.root_eq]
        exact Nat.ne_of_gt hs.root_lt
      have hrefs : s.nodes.size ≠ (s.graft t).typeRefs := by
        rw [hgrows.typeRefs_eq]
        exact Nat.ne_of_gt hs.typeRefs_lt
      obtain ⟨hlinked', hgrows', hattrs', hparent', hbelow', cs, hcs', hshows'⟩ :=
        graftedAll_graftAll ts (hlinked.attach hp' htop hnone hroot hrefs) (p := p)
          (by simpa using hp')
      have hold := hgrows.node?_eq p hp id
      rw [graftAll, hlink]
      refine ⟨hlinked', ?_, ?_, ?_, fun {q c} hc hq => ?_, s.nodes.size :: cs, ?_,
        (s.graft t).nodes.size, ?_, ?_⟩
      · have hattach := (hgrows.mono (Q := (· = p)) fun _ _ h => h.elim).trans
          (grows_attach (s.graft t) p s.nodes.size) fun k hk h =>
            h.elim (fun h => h) fun h => absurd h (Nat.ne_of_lt hk)
        exact hattach.trans hgrows' fun _ _ h => h
      · rw [hattrs', attrs_attach]
        exact attrs_congr hold
      · rw [hparent', parent?_attach htop, if_neg (Nat.ne_of_lt hp)]
        exact parent?_congr hold
      · -- a new node is in this copy, or in one of the later ones
        rcases Nat.lt_or_ge c (s.graft t).nodes.size with hlt | hle
        · have hne : c ≠ p := Nat.ne_of_gt (Nat.lt_of_lt_of_le hp hc)
          rw [parent?_congr (hgrows'.node?_eq c (by simpa using hlt) hne),
            parent?_attach htop] at hq
          split at hq
          · obtain rfl := Option.some.inj hq
            exact Nat.lt_of_lt_of_le hp hc
          · exact hbelow hc hq
        · exact hbelow' (by simpa using hle) hq
      · rw [hcs', children_attach hp', if_pos rfl, children_congr hold, List.append_assoc]
        rfl
      · refine (hshows.frame (agree_attach hp' hp)).frame (hgrows'.agree (by simp) ?_)
        intro k hk _
        exact Nat.ne_of_gt (Nat.lt_of_lt_of_le hp hk)
      · simpa using hshows'

end

end Schema

end TypeOutline
