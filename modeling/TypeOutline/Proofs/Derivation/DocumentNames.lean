import TypeOutline.Proofs.Derivation.DocumentNodes
import TypeOutline.Proofs.Derivation.RepeatedKeys
import TypeOutline.Proofs.Text.Capital

/-!
# The names in the tree of a document

A node of a document is named for a key of the document, in capitals, or
has no name: it stands for the document itself or for an item of a list
(`isName_of_document`). Not every key has a node. Of the items of a
list only the first is shown, and the value of a repeated key has no
members.
-/

namespace TypeOutline

open Relation (TransGen)

/-- The name of a key, in capitals, or none. -/
def Json.IsName (ks : List String) (name : String) : Prop :=
  name = "" ∨ ∃ key ∈ ks, name = Text.capitalize key

section Names

variable {types : Types} {ks : List String} {p q : Site} {l : Layer}

/-- A member keeps the name of the node that it stands on, has none, or is named for its key. -/
theorem name_of_mem_sites {a : Attributes} {shape : Shape Value} {top : Bool}
    {above : Finset String} (hshape : ∀ fields, shape ≠ .record fields)
    (hkeys : Json.HasKeysIn ks shape) (hq : q ∈ (shape.content a).sites top above) :
    q.attrs.name = a.name ∨ Json.IsName ks q.attrs.name := by
  cases shape with
  | scalar kind => exact absurd hq List.not_mem_nil
  | list fixed elements zero =>
      dsimp only [Shape.content] at hq
      repeat' split at hq
      · exact absurd hq List.not_mem_nil
      · rw [List.mem_singleton.mp hq]
        exact .inr (.inl rfl)
      · obtain ⟨v, -, rfl⟩ := List.mem_map.mp hq
        exact .inr (.inl rfl)
  | record fields => exact absurd rfl (hshape fields)
  | map key keyType entries =>
      rw [Shape.content] at hq
      repeat' split at hq
      · exact absurd hq List.not_mem_nil
      · exact absurd hq List.not_mem_nil
      · exact absurd hq List.not_mem_nil
      · obtain ⟨e, he, rfl⟩ := List.mem_map.mp hq
        obtain ⟨m, hm, rfl⟩ := List.mem_map.mp he
        have hvisit := isVisitOrder_members entries
        have hentry := hvisit.perm.mem_iff.mp (List.mem_map_of_mem hm)
        refine .inr (.inr ⟨m.key, hkeys key keyType entries rfl _ hentry, ?_⟩)
        exact (name_attributes m).trans (hvisit.name_eq m hm)
  | slot target =>
      cases target with
      | none => exact absurd hq List.not_mem_nil
      | some v =>
          rw [List.mem_singleton.mp hq]
          exact .inl rfl
  | pointer target zero =>
      dsimp only [Shape.content] at hq
      split at hq
      · exact absurd hq List.not_mem_nil
      · rw [List.mem_singleton.mp hq]
        exact .inl rfl
  | nil => exact absurd hq List.not_mem_nil

theorem isName_of_reaches {j : Json} {path : List Layer}
    (h : Reaches types (.start j.toValue) path p) :
    Json.IsPartOver j.keys p.value ∧ Json.IsName j.keys p.attrs.name := by
  induction h with
  | start => exact ⟨⟨j, List.Subset.refl _, .inl rfl⟩, .inl rfl⟩
  | @member path p q l _ hl hq ih =>
      obtain ⟨hpart, hname⟩ := ih
      obtain ⟨l', hl', hdocument, hkeys, hmembers⟩ :=
        @Json.exists_layer_of_isPartOver types _ _ hpart
      obtain rfl := Option.some.inj (hl.symm.trans hl')
      refine ⟨hmembers _ (mem_members hl hq).1, ?_⟩
      obtain ⟨declared, hr⟩ := exists_enters_of_mem_members hl hq
      rw [members_of_enters hl hr] at hq
      rcases name_of_mem_sites hdocument.isNoRecord hkeys hq with heq | hnamed
      · rw [heq, name_head]
        exact hname
      · exact hnamed

end Names

section Documents

variable {types : Types} {j : Json} {s : Schema} {out : Outline} {k : NodeId}

/-- Every node below the top has the name of a key, or none. -/
theorem isName_of_document (hs : s.Linked) (ho : s.Renders out)
    (houtlines : Outlines types (.start j.toValue) out) (hk : TransGen s.Owns s.root k) :
    Json.IsName j.keys (s.attrs k).name := by
  obtain ⟨p, hp⟩ := Schema.exists_standsFor hs ho houtlines hk
  obtain ⟨path, hpath⟩ := hp.exists_reaches
  obtain ⟨-, o, ⟨depth, hout⟩, htree⟩ := hp.exists_outlines hs ho houtlines
  have hlevels : p.value.EveryLevel types Layer.IsNoRecord := fun w hw l hl =>
    (Json.everyLevel_toValue j w ((unfolds_of_reaches hpath).trans hw) l hl).isNoRecord
  rw [← Schema.label_tree, htree, (ordered_of_outline depth hout hlevels).1]
  exact (isName_of_reaches hpath).2

end Documents

end TypeOutline
