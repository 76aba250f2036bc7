import TypeOutline.Proofs.Arena.Trees
import Mathlib.Data.List.Perm.Subperm
import Mathlib.Logic.Relation

/-!
# Descent in an arena

`s.Owns p c` says that `c` is a child of `p`. What is below a node is a
finite tree exactly if the node does not stand below itself
(`Linked.isSome_subtree?_iff`). By the ownership law a node on a cycle
has its one parent on it, so nothing that leads to a cycle is off it
(`Linked.transGen_of_reaches`): a node without a parent leads to none.
And the way down from such a node meets no id twice, so it is no longer
than the arena is large, which is as deep as `subtree?` looks.
-/

namespace TypeOutline

namespace Schema

open Relation (ReflTransGen TransGen)

variable {s : Schema}

/-- `c` is a child of `p`. -/
def Owns (s : Schema) (p c : NodeId) : Prop := c ∈ s.children p

/-! ## What a tree holds -/

theorem reaches_of_traces : {r : Rose NodeId} → Traces s r → ∀ {x : NodeId},
    x ∈ r.preorder → ReflTransGen s.Owns r.label x
  | .node id rs, h, x, hx => by
      rw [Rose.preorder] at hx
      rcases List.mem_cons.mp hx with rfl | hx
      · exact .refl
      · obtain ⟨r, hr, hxr⟩ := Rose.mem_preorderAll.mp hx
        have hchild : s.Owns id r.label := by
          rw [Owns, h.1]
          exact List.mem_map_of_mem hr
        exact .head hchild (reaches_of_traces (h.2.of_mem r hr) hxr)

theorem mem_of_reaches {r : Rose NodeId} (h : Traces s r) {x : NodeId}
    (hx : ReflTransGen s.Owns r.label x) : x ∈ r.preorder := by
  induction hx with
  | refl => exact r.label_mem_preorder
  | tail _ hstep ih => exact children_subset_of_traces h ih hstep

/-- The tree of a node holds what is reached from the node. -/
theorem mem_preorder_iff {id x : NodeId} {r : Rose NodeId} (h : s.subtree? id = some r) :
    x ∈ r.preorder ↔ ReflTransGen s.Owns id x := by
  obtain ⟨rfl, htraces⟩ := traces_of_subtree? h
  exact ⟨reaches_of_traces htraces, mem_of_reaches htraces⟩

/-! ## No id occurs twice -/

theorem exists_traces_of_mem : {r : Rose NodeId} → Traces s r → ∀ {x : NodeId},
    x ∈ r.preorder → ∃ q, q.label = x ∧ Traces s q ∧ q.height ≤ r.height
  | .node id rs, h, x, hx => by
      rw [Rose.preorder] at hx
      rcases List.mem_cons.mp hx with rfl | hx
      · exact ⟨_, rfl, h, Nat.le_refl _⟩
      · obtain ⟨r, hr, hxr⟩ := Rose.mem_preorderAll.mp hx
        obtain ⟨q, hlabel, hq, hle⟩ := exists_traces_of_mem (h.2.of_mem r hr) hxr
        exact ⟨q, hlabel, hq, Nat.le_trans hle (Nat.le_of_lt (Rose.height_lt_of_mem hr))⟩

/-- How much lower the tree of a node is than any tree of the arena could be. -/
def rank (s : Schema) (id : NodeId) : Nat := s.nodes.size + 1 - (s.subtree id).height

/-- In a tree that was found the trees get lower on every way down. -/
theorem rank_lt_of_subtree? {id : NodeId} {r : Rose NodeId} (h : s.subtree? id = some r) :
    ∀ p ∈ r.preorder, ∀ c ∈ s.children p, s.rank p < s.rank c := by
  intro p hp c hc
  obtain ⟨-, htraces⟩ := traces_of_subtree? h
  have hbound : r.height ≤ s.nodes.size + 1 := height_le_of_subtreeWithin? h
  obtain ⟨⟨p, qs⟩, rfl, hq, hle⟩ := exists_traces_of_mem htraces hp
  rw [Rose.label, hq.1] at hc
  obtain ⟨q', hq', rfl⟩ := List.mem_map.mp hc
  have hlower : q'.height < (Rose.node p qs).height := Rose.height_lt_of_mem hq'
  have hfound := subtree?_of_traces hq (Nat.le_trans hle hbound)
  have hfound' := subtree?_of_traces (hq.2.of_mem q' hq') (by omega)
  rw [rank, rank, subtree_eq hfound, subtree_eq hfound']
  omega

theorem Linked.nodup_of_subtree? (hs : s.Linked) {id : NodeId} {r : Rose NodeId}
    (h : s.subtree? id = some r) : r.preorder.Nodup :=
  nodup_preorder hs (traces_of_subtree? h).2 (rank_lt_of_subtree? h)

/-! ## Cycles -/

/-- A node with a finite tree does not stand below itself: there would be a lower tree of the same
node, and a node has only one. -/
theorem not_transGen_of_traces {r : Rose NodeId} (h : Traces s r) :
    ¬ TransGen s.Owns r.label r.label := by
  intro hcycle
  obtain ⟨c, hc, hback⟩ := TransGen.head'_iff.mp hcycle
  obtain ⟨id, rs⟩ := r
  rw [Owns, Rose.label, h.1] at hc
  obtain ⟨q, hq, rfl⟩ := List.mem_map.mp hc
  have htraces := h.2.of_mem q hq
  obtain ⟨q', hlabel, htraces', hle⟩ := exists_traces_of_mem htraces (mem_of_reaches htraces hback)
  have hlower : q.height < (Rose.node id rs).height := Rose.height_lt_of_mem hq
  rw [htraces'.unique h hlabel] at hle
  exact absurd hlower (Nat.not_lt_of_le hle)

theorem not_transGen_of_subtree? {id : NodeId} {r : Rose NodeId} (h : s.subtree? id = some r) :
    ¬ TransGen s.Owns id id := by
  obtain ⟨rfl, htraces⟩ := traces_of_subtree? h
  exact not_transGen_of_traces htraces

/-- What leads to a cycle is on it. -/
theorem Linked.transGen_of_reaches (hs : s.Linked) {t c : NodeId} (hc : TransGen s.Owns c c)
    (h : ReflTransGen s.Owns t c) : TransGen s.Owns t t := by
  induction h using ReflTransGen.head_induction_on with
  | refl => exact hc
  | head hstep _ ih =>
      obtain ⟨p, hback, hp⟩ := TransGen.tail'_iff.mp ih
      obtain rfl := hs.parent_unique hp hstep
      exact .head' hstep hback

theorem Linked.not_transGen_of_parent?_none (hs : s.Linked) {t : NodeId}
    (ht : s.parent? t = none) : ¬ TransGen s.Owns t t := by
  intro hcycle
  obtain ⟨p, -, hp⟩ := TransGen.tail'_iff.mp hcycle
  exact hs.not_mem_of_parent?_none ht p hp

/-- What is below a child is not a child itself. -/
theorem Linked.not_owns_of_transGen (hs : s.Linked) {t c k : NodeId}
    (ht : ¬ TransGen s.Owns t t) (hc : s.Owns t c) (hk : TransGen s.Owns c k) :
    ¬ s.Owns t k := by
  intro htk
  obtain ⟨p, hcp, hpk⟩ := TransGen.tail'_iff.mp hk
  obtain rfl := hs.parent_unique htk hpk
  exact ht (.head' hc hcp)

/-! ## The way down -/

/-- The ids on the way from `top` down to a node, the node first. -/
inductive Descends (s : Schema) (top : NodeId) : NodeId → List NodeId → Prop
  | top : Descends s top top [top]
  | child {p c : NodeId} {ks : List NodeId} (hp : Descends s top p ks) (hc : s.Owns p c) :
      Descends s top c (c :: ks)

namespace Descends

variable {top k : NodeId} {ks : List NodeId}

theorem reaches (h : Descends s top k ks) :
    ∀ x ∈ ks, ReflTransGen s.Owns top x ∧ ReflTransGen s.Owns x k := by
  induction h with
  | top =>
      intro x hx
      rw [List.mem_singleton.mp hx]
      exact ⟨.refl, .refl⟩
  | @child p c ks hp hc ih =>
      intro x hx
      rcases List.mem_cons.mp hx with rfl | hx
      · cases hp with
        | top => exact ⟨.single hc, .refl⟩
        | child hp' hc' => exact ⟨(ih _ List.mem_cons_self).1.tail hc, .refl⟩
      · obtain ⟨hfrom, hto⟩ := ih x hx
        exact ⟨hfrom, hto.tail hc⟩

/-- The way down from a node that is on no cycle meets no id twice. -/
theorem nodup (hs : s.Linked) (htop : ¬ TransGen s.Owns top top) (h : Descends s top k ks) :
    ks.Nodup := by
  induction h with
  | top => exact List.nodup_singleton top
  | @child p c ks hp hc ih =>
      refine List.nodup_cons.mpr ⟨fun hmem => ?_, ih⟩
      obtain ⟨hfrom, hto⟩ := hp.reaches c hmem
      exact htop (hs.transGen_of_reaches (.tail' hto hc) hfrom)

theorem lt_size (hs : s.Linked) (htop : top < s.nodes.size) (h : Descends s top k ks) :
    ∀ x ∈ ks, x < s.nodes.size := by
  induction h with
  | top =>
      intro x hx
      rw [List.mem_singleton.mp hx]
      exact htop
  | child hp hc ih =>
      intro x hx
      rcases List.mem_cons.mp hx with rfl | hx
      · exact hs.lt_size_of_mem hc
      · exact ih x hx

theorem length_le (hs : s.Linked) (hlt : top < s.nodes.size)
    (htop : ¬ TransGen s.Owns top top) (h : Descends s top k ks) :
    ks.length ≤ s.nodes.size := by
  have hsub : ks ⊆ List.range s.nodes.size := fun x hx =>
    List.mem_range.mpr (h.lt_size hs hlt x hx)
  have hle := ((h.nodup hs htop).subperm hsub).length_le
  rwa [List.length_range] at hle

/-- A tree is found at a depth that makes up for the way to its top. -/
theorem exists_subtreeWithin? (hs : s.Linked) (hlt : top < s.nodes.size)
    (htop : ¬ TransGen s.Owns top top) (depth : Nat) : ∀ {k : NodeId} {ks : List NodeId},
    Descends s top k ks → s.nodes.size < depth + ks.length →
      ∃ r, s.subtreeWithin? depth k = some r := by
  induction depth with
  | zero =>
      intro k ks h hdepth
      have hle := h.length_le hs hlt htop
      omega
  | succ depth ih =>
      intro k ks h hdepth
      have hbelow : ∀ c ∈ s.children k, ∃ r, s.subtreeWithin? depth c = some r := by
        intro c hc
        refine ih (h.child hc) ?_
        rw [List.length_cons]
        omega
      obtain ⟨rs, hrs⟩ := exists_mapM hbelow
      refine ⟨.node k rs, ?_⟩
      rw [subtreeWithin?, hrs]
      rfl

end Descends

/-- A node that does not stand below itself has a finite tree. -/
theorem Linked.exists_subtree? (hs : s.Linked) {k : NodeId} (hk : k < s.nodes.size)
    (hacyclic : ¬ TransGen s.Owns k k) : ∃ r, s.subtree? k = some r :=
  Descends.exists_subtreeWithin? hs hk hacyclic (s.nodes.size + 1) .top (by omega)

theorem Linked.isSome_subtree?_iff (hs : s.Linked) {k : NodeId} (hk : k < s.nodes.size) :
    (s.subtree? k).isSome ↔ ¬ TransGen s.Owns k k := by
  rw [Option.isSome_iff_exists]
  constructor
  · rintro ⟨r, hr⟩
    exact not_transGen_of_subtree? hr
  · exact hs.exists_subtree? hk

end Schema

end TypeOutline
