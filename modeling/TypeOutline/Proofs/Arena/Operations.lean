import TypeOutline.Proofs.Arena.Growth
import TypeOutline.Proofs.Arena.Renumbering
import TypeOutline.Schema.Dump

/-!
# Sequences of operations

What the users of a schema do to its nodes, one operation after the
other. `addChild` does not look for cycles: a node that was taken out may
be put below one of its own descendants, and then both stand below
themselves. By the ownership law no such cycle is reached from a top. So
whatever is done, the two trees stay finite and disjoint, and all that
walks over them comes to an end (`exists_runAll?`).
-/

namespace TypeOutline

/-- An operation on the nodes of a schema. -/
inductive Operation where
  | newChild (parent : NodeId) (name : String)
  | addChild (parent child : NodeId)
  | removeChild (parent child : NodeId)
  | removeAllChildren (id : NodeId)
  | copy (id : NodeId)
  | compact
deriving Repr, DecidableEq

namespace Operation

open Relation (ReflTransGen TransGen)

variable {s : Schema}

/-- The operation meets an id outside of the arena. -/
def faults (s : Schema) : Operation → Bool
  | newChild parent _ => s.newChildFaults parent
  | addChild parent child => s.addChildFaults parent child
  | removeChild parent child =>
      !s.has parent || ((s.children parent).contains child && !s.has child)
  | removeAllChildren id => !s.has id || (s.children id).any (!s.has ·)
  | copy id => (s.preorder id).any (!s.has ·)
  | compact => s.sizeFaults || s.compactFaults

/-- The schema that an operation leaves if it meets no id outside of the arena; none if it does not
come to an end. -/
def perform? (s : Schema) : Operation → Option Schema
  | newChild parent name => some (s.newChild parent name)
  | addChild parent child => some (s.addChild parent child)
  | removeChild parent child => some (s.removeChild parent child)
  | removeAllChildren id => some (s.removeAllChildren id)
  | copy id => s.copy? id
  | compact => s.compact?

def run? (s : Schema) (op : Operation) : Option Schema :=
  if op.faults s then none else op.perform? s

def runAll? (s : Schema) : List Operation → Option Schema
  | [] => some s
  | op :: ops => (op.run? s).bind fun s' => runAll? s' ops

/-- The ids are inside of the arena, no top is moved, and what is copied does not stand below
itself. -/
def Allowed (s : Schema) : Operation → Prop
  | newChild parent _ => parent < s.nodes.size
  | addChild parent child =>
      parent < s.nodes.size ∧ child < s.nodes.size ∧ child ≠ s.root ∧ child ≠ s.typeRefs
  | removeChild parent child => parent < s.nodes.size ∧ child < s.nodes.size
  | removeAllChildren id => id < s.nodes.size
  | copy id => id < s.nodes.size ∧ ¬ TransGen s.Owns id id
  | compact => True

/-- Each operation is allowed in the schema that the ones before it lead to. -/
def AllowedAll (s : Schema) : List Operation → Prop
  | [] => True
  | op :: ops => op.Allowed s ∧ ∀ s', op.run? s = some s' → AllowedAll s' ops

end Operation

namespace Schema

open Relation (ReflTransGen TransGen)

variable {s : Schema}

/-! ## The ownership law -/

theorem has_of_lt {k : NodeId} (hk : k < s.nodes.size) : s.has k = true :=
  decide_eq_true hk

theorem any_not_has {ks : List NodeId} (h : ∀ k ∈ ks, k < s.nodes.size) :
    ks.any (!s.has ·) = false := by
  rw [List.any_eq_false]
  intro k hk
  rw [has_of_lt (h k hk)]
  decide

namespace Linked

theorem any_parent_has (hs : s.Linked) (k : NodeId) :
    (s.parent? k).any (!s.has ·) = false := by
  cases hp : s.parent? k with
  | none => rfl
  | some p =>
      have hlt := lt_size_of_mem_children (hs.mem_children_iff.mpr hp)
      rw [Option.any_some, has_of_lt hlt]
      rfl

/-- A node that is no top is moved to another place, its old list losing it first. -/
theorem addChild (hs : s.Linked) {p c : NodeId} (hp : p < s.nodes.size) (hc : c < s.nodes.size)
    (hroot : c ≠ s.root) (htop : c ≠ s.typeRefs) : (s.addChild p c).Linked := by
  cases hpar : s.parent? c with
  | none =>
      rw [addChild_of_parent?_none hc hpar]
      exact hs.attach hp hc hpar hroot htop
  | some old =>
      have hmem := hs.mem_children_iff.mpr hpar
      have hold := has_of_lt (lt_size_of_mem_children hmem)
      obtain ⟨n, hn⟩ := lt_size_iff.mp hc
      have hnode : n.parent = some old := by
        rw [parent?, hn] at hpar
        exact hpar
      rw [Schema.addChild, hn]
      dsimp only
      rw [hnode]
      dsimp only
      rw [if_pos hold]
      refine (hs.removeChild old c).attach (by simpa using hp) (by simpa using hc) ?_
        (by simpa using hroot) (by simpa using htop)
      rw [parent?_removeChild_of_mem hmem, if_pos rfl]

theorem newChild (hs : s.Linked) {p : NodeId} (hp : p < s.nodes.size) (name : String) :
    (s.newChild p name).Linked := by
  refine (hs.alloc { name }).addChild ?_ ?_ (Nat.ne_of_gt hs.root_lt) (Nat.ne_of_gt hs.typeRefs_lt)
  · rw [size_alloc]
    exact Nat.lt_succ_of_lt hp
  · rw [size_alloc]
    exact Nat.lt_succ_self _

theorem copy (hs : s.Linked) (id : NodeId) : (s.copy id).Linked :=
  (grafted_graft (s.tree id) hs).linked

theorem sizeFaults_eq_false (hs : s.Linked) : s.sizeFaults = false :=
  any_not_has hs.ordered.lt_size

theorem compactFaults_eq_false (hs : s.Linked) : s.compactFaults = false := by
  rw [compactFaults, hs.ordered.orderedNodes_eq, List.any_eq_false]
  intro n hn
  obtain ⟨k, hk, rfl⟩ := List.mem_map.mp hn
  rw [hs.not_strays (hs.ordered.lt_size k hk)]
  decide

end Linked

/-! ## The trees -/

/-- The nodes reached from the two tops form two disjoint finite trees, and these are what is
counted and dumped. -/
structure Forest (s : Schema) (r q : Rose NodeId) : Prop where
  subtree?_root : s.subtree? s.root = some r
  subtree?_typeRefs : s.subtree? s.typeRefs = some q
  mem_root_iff : ∀ k, k ∈ r.preorder ↔ ReflTransGen s.Owns s.root k
  mem_typeRefs_iff : ∀ k, k ∈ q.preorder ↔ ReflTransGen s.Owns s.typeRefs k
  nodup : (r.preorder ++ q.preorder).Nodup
  lt_size : ∀ k ∈ r.preorder ++ q.preorder, k < s.nodes.size
  size_eq : s.size = r.preorder.length + q.preorder.length
  dump_eq : s.dump = .object
    [(rootName, dumpTree (r.map s.attrs)), (typeRefsName, dumpTree (q.map s.attrs))]

theorem Linked.exists_forest (hs : s.Linked) : ∃ r q, s.Forest r q := by
  obtain ⟨r, q, hr, hq⟩ := hs.exists_trees
  have hordered := hs.ordered
  refine ⟨r, q, hr, hq, fun k => mem_preorder_iff hr, fun k => mem_preorder_iff hq, ?_, ?_, ?_, ?_⟩
  · rw [← order_eq hr hq]
    exact hordered.nodup
  · rw [← order_eq hr hq]
    exact hordered.lt_size
  · rw [size, preorder, preorder, subtree_eq hr, subtree_eq hq]
  · rw [dump, tree_eq_of_subtree? hr, tree_eq_of_subtree? hq]

end Schema

namespace Operation

open Schema (not_transGen_of_subtree?)
open Relation (ReflTransGen TransGen)

variable {s : Schema} {op : Operation} {ops : List Operation}

/-! ## One operation after the other -/

theorem faults_eq_false (hs : s.Linked) (h : op.Allowed s) : op.faults s = false := by
  cases op with
  | newChild p name => exact decide_eq_false (Nat.lt_asymm h)
  | addChild p c =>
      obtain ⟨hp, hc, -⟩ := h
      rw [faults, Schema.addChildFaults, Schema.has_of_lt hp, Schema.has_of_lt hc,
        hs.any_parent_has]
      rfl
  | removeChild p c =>
      rw [faults, Schema.has_of_lt h.1, Schema.has_of_lt h.2]
      simp
  | removeAllChildren id =>
      rw [faults, Schema.has_of_lt h, Schema.any_not_has fun c hc => hs.lt_size_of_mem hc]
      rfl
  | copy id =>
      obtain ⟨r, hr⟩ := hs.exists_subtree? h.1 h.2
      obtain ⟨rfl, htraces⟩ := Schema.traces_of_subtree? hr
      rw [faults, Schema.preorder, Schema.subtree_eq hr]
      exact Schema.any_not_has (hs.lt_size_of_traces htraces h.1)
  | compact =>
      rw [faults, hs.sizeFaults_eq_false, hs.compactFaults_eq_false]
      rfl

theorem run?_eq_perform? (hs : s.Linked) (h : op.Allowed s) : op.run? s = op.perform? s := by
  rw [run?, faults_eq_false hs h, if_neg (by decide)]

/-- An allowed operation comes to an end and keeps the ownership law. -/
theorem exists_run? (hs : s.Linked) (h : op.Allowed s) :
    ∃ s', op.run? s = some s' ∧ s'.Linked := by
  rw [run?_eq_perform? hs h]
  cases op with
  | newChild p name => exact ⟨_, rfl, hs.newChild h name⟩
  | addChild p c =>
      obtain ⟨hp, hc, hroot, htop⟩ := h
      exact ⟨_, rfl, hs.addChild hp hc hroot htop⟩
  | removeChild p c => exact ⟨_, rfl, hs.removeChild p c⟩
  | removeAllChildren id => exact ⟨_, rfl, hs.removeAllChildren id⟩
  | copy id =>
      obtain ⟨r, hr⟩ := hs.exists_subtree? h.1 h.2
      refine ⟨s.copy id, ?_, hs.copy id⟩
      rw [perform?, Schema.copy?, hr]
      rfl
  | compact => exact ⟨s.compact, hs.compact?.1, hs.compact⟩

theorem exists_runAll?_of_linked (hs : s.Linked) (h : AllowedAll s ops) :
    ∃ s', runAll? s ops = some s' ∧ s'.Linked := by
  induction ops generalizing s with
  | nil => exact ⟨s, rfl, hs⟩
  | cons op ops ih =>
      obtain ⟨hop, hops⟩ := h
      obtain ⟨s', hrun, hs'⟩ := exists_run? hs hop
      rw [runAll?, hrun]
      exact ih hs' (hops s' hrun)

/-- Whatever sequence of allowed operations is applied to the empty schema: it comes to an end, in a
schema that keeps the ownership law, whose tops have two disjoint finite trees and which can be
renumbered. -/
theorem exists_runAll? (h : AllowedAll .empty ops) : ∃ s, runAll? .empty ops = some s
    ∧ s.Linked
    ∧ (∀ p q c, c ∈ s.children p → c ∈ s.children q → p = q)
    ∧ (∃ r q, s.Forest r q)
    ∧ s.sizeFaults = false ∧ s.compactFaults = false ∧ s.compact? = some s.compact := by
  obtain ⟨s, hrun, hs⟩ := exists_runAll?_of_linked Schema.sound_empty.toLinked h
  exact ⟨s, hrun, hs, fun p q c => hs.parent_unique, hs.exists_forest, hs.sizeFaults_eq_false,
    hs.compactFaults_eq_false, hs.compact?.1⟩

theorem AllowedAll.cons {s' : Schema} (hop : op.Allowed s) (hrun : op.run? s = some s')
    (hops : AllowedAll s' ops) : AllowedAll s (op :: ops) := by
  refine ⟨hop, fun t ht => ?_⟩
  obtain rfl := Option.some.inj (hrun.symm.trans ht)
  exact hops

/-- Two nodes are put below each other, after one of them was copied. -/
def knot : List Operation :=
  [.newChild 0 "a", .newChild 2 "b", .copy 2, .removeChild 0 2, .addChild 3 2, .addChild 1 4]

theorem allowedAll_knot : AllowedAll .empty knot := by
  refine .cons (by show _ < _; decide) rfl ?_
  refine .cons (by show _ < _; decide) rfl ?_
  refine .cons ⟨by decide, not_transGen_of_subtree? rfl⟩ rfl ?_
  refine .cons ⟨by decide, by decide⟩ rfl ?_
  refine .cons ⟨by decide, by decide, by decide, by decide⟩ rfl ?_
  exact .cons ⟨by decide, by decide, by decide, by decide⟩ rfl trivial

theorem exists_runAll?_knot : AllowedAll .empty knot ∧ ∃ s, runAll? .empty knot = some s
    ∧ s.Linked ∧ TransGen s.Owns 2 2
    ∧ (∃ r q, s.Forest r q ∧ r.preorder = [0] ∧ q.preorder = [1, 4, 5])
    ∧ s.compact? = some s.compact := by
  obtain ⟨s, hrun, hs, -, ⟨r, q, hforest⟩, -, -, hcompact⟩ := exists_runAll? allowedAll_knot
  have hends : (runAll? .empty knot).map (fun s => (s.children 2, s.children 3,
      s.preorder s.root, s.preorder s.typeRefs)) = some ([3], [2], [0], [1, 4, 5]) := by rfl
  rw [hrun, Option.map_some, Option.some.injEq, Prod.mk.injEq, Prod.mk.injEq, Prod.mk.injEq,
    Schema.preorder, Schema.preorder, Schema.subtree_eq hforest.subtree?_root,
    Schema.subtree_eq hforest.subtree?_typeRefs] at hends
  obtain ⟨htwo, hthree, hroot, hrefs⟩ := hends
  refine ⟨allowedAll_knot, s, hrun, hs, ?_, ⟨r, q, hforest, hroot, hrefs⟩, hcompact⟩
  have hdown : s.Owns 2 3 := by simp [Schema.Owns, htwo]
  have hup : s.Owns 3 2 := by simp [Schema.Owns, hthree]
  exact .tail (.single hdown) hup

end Operation

end TypeOutline
