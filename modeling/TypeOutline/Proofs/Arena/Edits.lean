import TypeOutline.Proofs.Arena.Operations

/-!
# Edits and the trees that they spare

The states of a schema are those that edits lead to from the empty one
(`Schema.Reached`). An edit is an operation on the links or a change of
what a node says. Each touches some nodes: those whose attributes or list
of children it may rewrite. A tree of which no node is touched stays as it
is, however many edits are made (`untouched_of_spares`): its child lists
lead through the same nodes to the same ends.
-/

namespace TypeOutline

open Relation (ReflTransGen)

/-- An operation on the links between the nodes of a schema, or a change of what a node says. -/
inductive Edit where
  | operation (op : Operation)
  | attributes (id : NodeId) (f : Attributes → Attributes)

namespace Edit

variable {s t : Schema} {e : Edit} {k : NodeId}

/-- The schema that an edit leaves; none if it meets an id outside of the arena or has no end. -/
def run? (s : Schema) : Edit → Option Schema
  | operation op => op.run? s
  | attributes id f => if s.has id then some (s.modifyAttrs id f) else none

def Allowed (s : Schema) : Edit → Prop
  | operation op => op.Allowed s
  | attributes id _ => id < s.nodes.size

/-- The edit may rewrite what the node says or its list of children. Moving a node rewrites the
lists of its old and its new parent, and a renumbering rewrites all nodes. -/
def Touches (s : Schema) (k : NodeId) : Edit → Prop
  | operation (.newChild p _) => k = p
  | operation (.addChild p c) => k = p ∨ s.parent? c = some k
  | operation (.removeChild p _) => k = p
  | operation (.removeAllChildren id) => k = id
  | operation (.copy _) => False
  | operation .compact => True
  | attributes id _ => k = id

/-- An allowed edit comes to an end and keeps the ownership law. -/
theorem exists_run? (hs : s.Linked) (h : e.Allowed s) : ∃ t, e.run? s = some t ∧ t.Linked := by
  cases e with
  | operation op => exact op.exists_run? hs h
  | attributes id f => exact ⟨_, if_pos (Schema.has_of_lt h), hs.modifyAttrs id f⟩

theorem linked_of_run? (hs : s.Linked) (h : e.Allowed s) (hrun : e.run? s = some t) :
    t.Linked := by
  obtain ⟨t', hrun', ht'⟩ := exists_run? hs h
  rw [hrun] at hrun'
  rwa [Option.some.inj hrun']

end Edit

/-! ## Moving a node -/

namespace Schema

variable {s t : Schema} {p c k : NodeId}

/-- A node is moved out of its old list, if it is in one, and then linked. -/
theorem addChild_eq (hc : c < s.nodes.size) (hold : ∀ old, s.parent? c = some old → s.has old) :
    s.addChild p c = ((s.parent? c).elim s (s.removeChild · c)).attach p c := by
  obtain ⟨n, hn⟩ := lt_size_iff.mp hc
  have hparent : s.parent? c = n.parent := by rw [parent?, hn]; rfl
  rw [hparent] at hold ⊢
  rw [addChild, hn]
  cases hp : n.parent with
  | none => simp only [hp, Option.elim_none]
  | some old => simp only [hp, Option.elim_some, if_pos (hold old hp)]

@[simp] theorem size_addChild (s : Schema) (p c : NodeId) :
    (s.addChild p c).nodes.size = s.nodes.size := by
  unfold addChild
  split
  · rfl
  · split
    · exact size_attach ..
    · split <;> simp

/-- Moving a node leaves the lists of all but its old and its new parent as they are. -/
theorem addChild_frame (hs : s.Linked) (hp : p < s.nodes.size) (hc : c < s.nodes.size)
    (hne : k ≠ p) (hold : s.parent? c ≠ some k) :
    (s.addChild p c).attrs k = s.attrs k ∧ (s.addChild p c).children k = s.children k := by
  have hhas : ∀ old, s.parent? c = some old → s.has old := fun old h =>
    has_of_lt (lt_size_of_mem_children (hs.mem_children_iff.mpr h))
  rw [addChild_eq hc hhas]
  cases hpar : s.parent? c with
  | none =>
      rw [Option.elim_none, attrs_attach, children_attach hp, if_neg hne]
      exact ⟨rfl, rfl⟩
  | some old =>
      have hp' : p < (s.removeChild old c).nodes.size := by rwa [size_removeChild]
      have hko : k ≠ old := fun heq => hold (heq ▸ hpar)
      rw [Option.elim_some, attrs_attach, children_attach hp', if_neg hne, attrs_removeChild,
        children_removeChild, if_neg hko]
      exact ⟨rfl, rfl⟩

/-- A new child changes no old node but its parent. -/
theorem newChild_frame (hs : s.Linked) (hp : p < s.nodes.size) (name : String)
    (hk : k < s.nodes.size) (hne : k ≠ p) :
    (s.newChild p name).attrs k = s.attrs k
      ∧ (s.newChild p name).children k = s.children k := by
  have hnew : (s.alloc { name }).parent? s.nodes.size = none := by
    rw [parent?_alloc, parent?, node?_eq_none (Nat.le_refl _)]
    rfl
  obtain ⟨hattrs, hchildren⟩ := addChild_frame (k := k) (p := p) (c := s.nodes.size)
    (hs.alloc { name }) (by rw [size_alloc]; exact Nat.lt_succ_of_lt hp)
    (by rw [size_alloc]; exact Nat.lt_succ_self _) hne
    (by rw [hnew]; exact (Option.some_ne_none k).symm)
  have hold := attrs_congr (node?_alloc_of_ne (s := s) { name } (Nat.ne_of_lt hk))
  exact ⟨hattrs.trans hold, hchildren.trans (children_alloc ..)⟩

end Schema

namespace Edit

variable {s t : Schema} {e : Edit} {k : NodeId}

/-- What is not touched says the same and has the same children. -/
theorem frame (hs : s.Linked) (hk : k < s.nodes.size) (h : e.Allowed s)
    (hrun : e.run? s = some t) (htouches : ¬ e.Touches s k) :
    s.nodes.size ≤ t.nodes.size ∧ t.attrs k = s.attrs k ∧ t.children k = s.children k := by
  cases e with
  | attributes id f =>
      obtain rfl := Option.some.inj ((if_pos (Schema.has_of_lt h)).symm.trans hrun)
      rw [Schema.size_modifyAttrs, Schema.children_modifyAttrs]
      exact ⟨Nat.le_refl _, Schema.attrs_congr (Schema.node?_modifyAttrs_of_ne htouches f), rfl⟩
  | operation op =>
      have hperform : op.perform? s = some t := (Operation.run?_eq_perform? hs h).symm.trans hrun
      cases op with
      | newChild p name =>
          obtain rfl := Option.some.inj hperform
          refine ⟨?_, Schema.newChild_frame hs h name hk htouches⟩
          rw [Schema.newChild, Schema.size_addChild, Schema.size_alloc]
          exact Nat.le_succ _
      | addChild p c =>
          obtain rfl := Option.some.inj hperform
          obtain ⟨hne, hold⟩ := not_or.mp htouches
          rw [Schema.size_addChild]
          exact ⟨Nat.le_refl _, Schema.addChild_frame hs h.1 h.2.1 hne hold⟩
      | removeChild p c =>
          obtain rfl := Option.some.inj hperform
          rw [Schema.size_removeChild, Schema.attrs_removeChild, Schema.children_removeChild]
          exact ⟨Nat.le_refl _, rfl, if_neg htouches⟩
      | removeAllChildren id =>
          obtain rfl := Option.some.inj hperform
          rw [Schema.size_removeAllChildren, Schema.attrs_removeAllChildren,
            Schema.children_removeAllChildren]
          exact ⟨Nat.le_refl _, rfl, if_neg htouches⟩
      | copy id =>
          obtain ⟨-, -, hcopy⟩ := Option.bind_eq_some_iff.mp hperform
          obtain rfl := Option.some.inj hcopy
          have hgrows := (Schema.grafted_graft (s.tree id) hs).grows
          have hnode := hgrows.node?_eq k hk not_false
          exact ⟨hgrows.size_le, Schema.attrs_congr hnode, Schema.children_congr hnode⟩
      | compact => exact absurd trivial htouches

end Edit

/-! ## One edit after the other -/

namespace Schema

variable {s t : Schema} {id : NodeId} {r : Rose NodeId}

/-- An allowed edit leads from `s` to `t` that touches none of the nodes in `keep`. -/
def Spares (keep : List NodeId) (s t : Schema) : Prop :=
  ∃ e : Edit, e.Allowed s ∧ e.run? s = some t ∧ ∀ k ∈ keep, ¬ e.Touches s k

/-- Allowed edits lead to the schema from the empty one. -/
def Reached (s : Schema) : Prop := ReflTransGen (Spares []) .empty s

theorem Linked.of_spares (hs : s.Linked) {keep : List NodeId}
    (h : ReflTransGen (Spares keep) s t) : t.Linked := by
  induction h with
  | refl => exact hs
  | tail _ hstep ih =>
      obtain ⟨e, hallowed, hrun, -⟩ := hstep
      exact Edit.linked_of_run? ih hallowed hrun

theorem Reached.linked (h : s.Reached) : s.Linked := sound_empty.toLinked.of_spares h

theorem Reached.edit (h : s.Reached) {e : Edit} (hallowed : e.Allowed s)
    (hrun : e.run? s = some t) : t.Reached :=
  h.tail ⟨e, hallowed, hrun, fun _ hk => absurd hk List.not_mem_nil⟩

/-- What a sequence of operations leads to is reached. -/
theorem Reached.runAll? (h : s.Reached) {ops : List Operation} (hops : Operation.AllowedAll s ops)
    (hrun : Operation.runAll? s ops = some t) : t.Reached := by
  induction ops generalizing s with
  | nil => exact Option.some.inj hrun ▸ h
  | cons op ops ih =>
      obtain ⟨hop, hrest⟩ := hops
      obtain ⟨s', hs', hrun'⟩ := Option.bind_eq_some_iff.mp hrun
      exact ih (h.edit (e := .operation op) hop hs') (hrest s' hs') hrun'

mutual

/-- A tree is followed in every arena in which its nodes have the same children. -/
theorem Traces.congr : {r : Rose NodeId} → Traces s r →
    (∀ k ∈ r.preorder, t.children k = s.children k) → Traces t r
  | .node id _, h, hsame =>
      ⟨(hsame id List.mem_cons_self).trans h.1,
        TracesAll.congr h.2 fun k hk => hsame k (List.mem_cons_of_mem id hk)⟩

theorem TracesAll.congr : {rs : List (Rose NodeId)} → TracesAll s rs →
    (∀ k ∈ Rose.preorderAll rs, t.children k = s.children k) → TracesAll t rs
  | [], _, _ => trivial
  | _ :: _, h, hsame =>
      ⟨h.1.congr fun k hk => hsame k (List.mem_append_left _ hk),
        TracesAll.congr h.2 fun k hk => hsame k (List.mem_append_right _ hk)⟩

end

/-- The nodes of a tree are those of the arena they were in, with the same attributes and the same
links, but for the parent of the top. -/
structure Untouched (s t : Schema) (id : NodeId) (r : Rose NodeId) : Prop where
  linked : t.Linked
  lt_size : id < t.nodes.size
  subtree?_eq : t.subtree? id = some r
  attrs_eq : ∀ k ∈ r.preorder, t.attrs k = s.attrs k
  children_eq : ∀ k ∈ r.preorder, t.children k = s.children k

/-- One edit that touches no node of a tree leaves it as it is. -/
theorem Untouched.of_edit (hs : s.Linked) (hid : id < s.nodes.size)
    (hr : s.subtree? id = some r) (h : Spares r.preorder s t) : Untouched s t id r := by
  obtain ⟨e, hallowed, hrun, htouches⟩ := h
  obtain ⟨rfl, htraces⟩ := traces_of_subtree? hr
  have hframe : ∀ k ∈ r.preorder, s.nodes.size ≤ t.nodes.size ∧ t.attrs k = s.attrs k
      ∧ t.children k = s.children k := fun k hk =>
    Edit.frame hs (hs.lt_size_of_traces htraces hid k hk) hallowed hrun (htouches k hk)
  obtain ⟨hsize, -⟩ := hframe r.label r.label_mem_preorder
  have hheight : r.height ≤ s.nodes.size + 1 := height_le_of_subtreeWithin? hr
  exact
    { linked := Edit.linked_of_run? hs hallowed hrun
      lt_size := Nat.lt_of_lt_of_le hid hsize
      subtree?_eq := subtree?_of_traces (htraces.congr fun k hk => (hframe k hk).2.2)
        (Nat.le_trans hheight (Nat.succ_le_succ hsize))
      attrs_eq := fun k hk => (hframe k hk).2.1
      children_eq := fun k hk => (hframe k hk).2.2 }

/-- Edits that touch no node of a tree leave it as it is, however many they are. -/
theorem untouched_of_spares (hs : s.Linked) (hid : id < s.nodes.size)
    (hr : s.subtree? id = some r) (h : ReflTransGen (Spares r.preorder) s t) :
    Untouched s t id r := by
  induction h with
  | refl => exact ⟨hs, hid, hr, fun _ _ => rfl, fun _ _ => rfl⟩
  | tail _ hstep ih =>
      have hnext := Untouched.of_edit ih.linked ih.lt_size ih.subtree?_eq hstep
      exact { hnext with
        attrs_eq := fun k hk => (hnext.attrs_eq k hk).trans (ih.attrs_eq k hk)
        children_eq := fun k hk => (hnext.children_eq k hk).trans (ih.children_eq k hk) }

namespace Untouched

/-- Below the top the links upwards are the same, too. -/
theorem parent?_eq (h : Untouched s t id r) (hs : s.Linked) (hr : s.subtree? id = some r)
    {k : NodeId} (hk : k ∈ r.preorder) (hne : k ≠ id) : t.parent? k = s.parent? k := by
  obtain ⟨rfl, htraces⟩ := traces_of_subtree? hr
  obtain heq | ⟨p, hp, hc⟩ := exists_parent_of_traces htraces hk
  · exact absurd heq hne
  · rw [hs.mem_children_iff.mp hc]
    rw [← h.children_eq p hp] at hc
    exact h.linked.mem_children_iff.mp hc

theorem tree_eq (h : Untouched s t id r) (hr : s.subtree? id = some r) : t.tree id = s.tree id := by
  rw [tree_eq_of_subtree? h.subtree?_eq, tree_eq_of_subtree? hr]
  exact Rose.map_congr r h.attrs_eq

end Untouched

end Schema

end TypeOutline
