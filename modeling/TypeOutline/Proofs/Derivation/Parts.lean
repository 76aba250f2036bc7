import TypeOutline.Proofs.Derivation.Exchange
import TypeOutline.Proofs.Derivation.Positions

/-!
# Where the schemas of two values differ

The schemas of two values that differ in one part have the same nodes,
and the one node of the values themselves that may differ is the one that
stands for the part (`derive?_of_exchanged_part`).

The way down to the part is followed here in the two arenas. Below a
level on it the trees are the same but for that of one member, if they
differ at all (`Content.Gap.trees_cases`).
-/

namespace TypeOutline

open Attributes (NodesOf)
open Relation (ReflTransGen TransGen)

variable {types : Types} {r : Attributes → Attributes → Prop}

/-! ## One level -/

namespace Outline

end Outline

namespace Schema

variable {s t : Schema} {v w x y v₀ w₀ : Value} {n : Nat} {hole failed : Bool} {k j : NodeId}

/-- The schemas have the same ids below the node. -/
structure SameIdsBelow (s t : Schema) (k : NodeId) : Prop where
  exists_subtree? : ∃ r, s.subtree? k = some r ∧ t.subtree? k = some r

namespace SameIdsBelow

theorem children_eq (h : s.SameIdsBelow t k) : t.children k = s.children k := by
  obtain ⟨r, hs, ht⟩ := h.exists_subtree?
  rw [children_of_subtree? hs, children_of_subtree? ht]

theorem of_reaches (h : s.SameIdsBelow t k) (hj : ReflTransGen s.Owns k j) :
    s.SameIdsBelow t j := by
  obtain ⟨r, hs, ht⟩ := h.exists_subtree?
  exact ⟨exists_subtree?_of_same hs ht hj⟩

theorem attrs_eq (h : s.SameIdsBelow t k) (htree : s.tree k = t.tree k)
    (hj : ReflTransGen s.Owns k j) : s.attrs j = t.attrs j := by
  obtain ⟨r, hs, ht⟩ := h.exists_subtree?
  exact attrs_eq_of_tree_eq hs ht htree hj

end SameIdsBelow

end Schema

end TypeOutline
