import TypeOutline.Document
import TypeOutline.Proofs.Derivation.Faithful

/-!
# Documents

A document is written out in full: it refers to no declared type. So its
derivation ends (`exists_outlines_of_isWritten`).
-/

namespace TypeOutline

/-! ## Values written out in full -/

/-- No part of the value refers to the table of types. -/
def Value.IsWritten (v : Value) : Prop := ∀ w ∈ v.subvalues, ∃ name shape, w = .layer name shape

theorem Value.isWritten_layer {name : Option String} {shape : Shape Value} :
    (layer name shape).IsWritten ↔ ∀ w ∈ shape.parts, w.IsWritten := by
  rw [IsWritten, subvalues_layer]
  constructor
  · intro h w hw u hu
    exact h u (List.mem_cons_of_mem _ (List.mem_flatMap.mpr ⟨w, hw, hu⟩))
  · intro h u hu
    rcases List.mem_cons.mp hu with rfl | hu
    · exact ⟨name, shape, rfl⟩
    · obtain ⟨w, hw, hu⟩ := List.mem_flatMap.mp hu
      exact h w hw u hu

theorem Value.layer?_layer {types : Types} (name : Option String) (shape : Shape Value) :
    (layer name shape).layer? types = some ⟨name, shape⟩ := by
  rw [layer?]
  cases types.size <;> rfl

/-- A wrapper without a name is entered wherever it stands. -/
theorem ruling_slot (target : Option Value) (top : Bool) (above : Finset String) :
    Layer.ruling ⟨none, .slot target⟩ top above = .enters none := by
  cases top <;> rfl

/-- The recursion over a value that is written out ends, because the parts of a level are
smaller. -/
theorem exists_outlines_of_isWritten {types : Types} {p : Site} (h : p.value.IsWritten) :
    ∃ o, Outlines types p o := by
  obtain ⟨name, shape, hlayer⟩ := h p.value (Value.self_mem_subvalues _)
  have hl : p.value.layer? types = some ⟨name, shape⟩ := by
    rw [hlayer, Value.layer?_layer]
  refine exists_outlines hl fun q hq => ?_
  have hpart := shape.members_subset_parts (mem_members hl hq).1
  have hwritten := Value.isWritten_layer.mp (hlayer ▸ h) _ hpart
  have hlt : q.value.size < p.value.size := by
    rw [hlayer]
    exact Value.size_lt_of_mem_parts hpart
  exact exists_outlines_of_isWritten hwritten
termination_by p.value.size

/-! ## The parts of documents -/

namespace Json

theorem toSlots_eq_map (js : List Json) : toSlots js = js.map toSlot := by
  induction js with
  | nil => rw [toSlots, List.map_nil]
  | cons j js ih => rw [toSlots, ih, List.map_cons]

theorem toEntries_eq_map (ms : List (String × Json)) :
    toEntries ms = ms.map fun m => (m.1, toSlot m.2) := by
  induction ms with
  | nil => rw [toEntries, List.map_nil]
  | cons m ms ih => rw [toEntries, ih, List.map_cons]

theorem toSlot_of_ne_null {j : Json} (h : j ≠ null) :
    j.toSlot = .ofShape (.slot (some j.toValue)) := by
  rw [toSlot]
  exact h

theorem sizeOf_lt_of_mem_entries {ms : List (String × Json)} {key : String} {j : Json}
    (h : (key, j) ∈ ms) : sizeOf j < sizeOf ms := by
  have hlt := List.sizeOf_lt_of_mem h
  rw [Prod.mk.sizeOf_spec] at hlt
  omega

theorem isWritten_emptySlot : Value.emptySlot.IsWritten :=
  Value.isWritten_layer.mpr fun _ hw => absurd hw List.not_mem_nil

theorem isWritten_toSlot {j : Json} (h : j.toValue.IsWritten) : j.toSlot.IsWritten := by
  by_cases hj : j = null
  · rw [hj, toSlot]
    exact isWritten_emptySlot
  · rw [toSlot_of_ne_null hj]
    exact Value.isWritten_layer.mpr fun w hw => List.mem_singleton.mp hw ▸ h

theorem isWritten_toValue (j : Json) : j.toValue.IsWritten := by
  cases j with
  | array js =>
      rw [toValue, toSlots_eq_map]
      refine Value.isWritten_layer.mpr fun w hw => ?_
      rcases List.mem_append.mp hw with hw | hw
      · obtain ⟨j, hj, rfl⟩ := List.mem_map.mp hw
        have hlt := List.sizeOf_lt_of_mem hj
        exact isWritten_toSlot (isWritten_toValue j)
      · exact List.mem_singleton.mp hw ▸ isWritten_emptySlot
  | object ms =>
      rw [toValue, toEntries_eq_map]
      refine Value.isWritten_layer.mpr fun w hw => ?_
      obtain ⟨e, he, rfl⟩ := List.mem_map.mp hw
      obtain ⟨⟨key, j⟩, hm, rfl⟩ := List.mem_map.mp he
      have hlt := sizeOf_lt_of_mem_entries hm
      exact isWritten_toSlot (isWritten_toValue j)
  | _ =>
      rw [toValue]
      exact Value.isWritten_layer.mpr fun _ hw => absurd hw List.not_mem_nil
termination_by sizeOf j
decreasing_by all_goals simp_wf; omega

end Json

end TypeOutline
