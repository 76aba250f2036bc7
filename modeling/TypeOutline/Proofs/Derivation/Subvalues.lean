import TypeOutline.Derive.Engine

/-!
# The values below a value

A value may unfold without end, but only finitely many values are written
in it and in the table of types, and every level met on the way down is
one of them (`mem_written_of_mem_parts`). They are as many as the size
that the bound on the depth of a walk is made of.
-/

namespace TypeOutline

/-- The values one level down, visited or not. -/
def Shape.parts {α : Type} : Shape α → List α
  | .scalar _ => []
  | .list _ elements zero => elements ++ [zero]
  | .record fields => fields.map (·.value)
  | .map _ _ entries => entries.map (·.2)
  | .pointer target zero => target.toList ++ [zero]
  | .slot target => target.toList
  | .nil => []

/-- The values that a level unfolds into. One that stands for an absent
value counts only where that value is absent. -/
def Shape.members {α : Type} : Shape α → List α
  | .scalar _ => []
  | .list _ elements zero => if elements.isEmpty then [zero] else elements
  | .record fields => (fields.filter (·.exported)).map (·.value)
  | .map _ _ entries => entries.map (·.2)
  | .pointer target zero => [target.getD zero]
  | .slot target => target.toList
  | .nil => []

theorem Shape.members_subset_parts {α : Type} (shape : Shape α) : shape.members ⊆ shape.parts := by
  intro v hv
  match shape with
  | .list _ elements zero =>
      rw [Shape.members] at hv
      split at hv
      · exact List.mem_append_right _ hv
      · exact List.mem_append_left _ hv
  | .record fields =>
      obtain ⟨f, hf, rfl⟩ := List.mem_map.mp hv
      exact List.mem_map_of_mem (List.mem_filter.mp hf).1
  | .map _ _ entries => exact hv
  | .pointer none zero => exact hv
  | .pointer (some w) zero =>
      rw [List.mem_singleton.mp hv]
      exact List.mem_cons_self
  | .slot target => exact hv

namespace Value

mutual

/-- The values written out in a value, itself first. -/
def subvalues : Value → List Value
  | .declared name type => [.declared name type]
  | .layer name (.list fixed elements zero) =>
      .layer name (.list fixed elements zero) :: (subvaluesAll elements ++ zero.subvalues)
  | .layer name (.record fields) => .layer name (.record fields) :: subvaluesFields fields
  | .layer name (.map key type entries) =>
      .layer name (.map key type entries) :: subvaluesEntries entries
  | .layer name (.pointer none zero) => .layer name (.pointer none zero) :: zero.subvalues
  | .layer name (.pointer (some v) zero) =>
      .layer name (.pointer (some v) zero) :: (v.subvalues ++ zero.subvalues)
  | .layer name (.slot none) => [.layer name (.slot none)]
  | .layer name (.slot (some v)) => .layer name (.slot (some v)) :: v.subvalues
  | .layer name (.scalar kind) => [.layer name (.scalar kind)]
  | .layer name .nil => [.layer name .nil]

def subvaluesAll : List Value → List Value
  | [] => []
  | v :: vs => v.subvalues ++ subvaluesAll vs

def subvaluesFields : List (Field Value) → List Value
  | [] => []
  | ⟨_, _, _, v⟩ :: fs => v.subvalues ++ subvaluesFields fs

def subvaluesEntries : List (String × Value) → List Value
  | [] => []
  | (_, v) :: es => v.subvalues ++ subvaluesEntries es

end

/-! ## How many there are -/

mutual

theorem length_subvalues : (v : Value) → v.subvalues.length = v.size
  | .declared .. => rfl
  | .layer _ (.list _ elements zero) => by
      have hs := length_subvaluesAll elements
      have hz := length_subvalues zero
      simp only [subvalues, size, List.length_cons, List.length_append]
      omega
  | .layer _ (.record fields) => by
      have hs := length_subvaluesFields fields
      simp only [subvalues, size, List.length_cons]
      omega
  | .layer _ (.map _ _ entries) => by
      have hs := length_subvaluesEntries entries
      simp only [subvalues, size, List.length_cons]
      omega
  | .layer _ (.pointer none zero) => by
      have hz := length_subvalues zero
      simp only [subvalues, size, List.length_cons]
      omega
  | .layer _ (.pointer (some v) zero) => by
      have hv := length_subvalues v
      have hz := length_subvalues zero
      simp only [subvalues, size, List.length_cons, List.length_append]
      omega
  | .layer _ (.slot none) => rfl
  | .layer _ (.slot (some v)) => by
      have hv := length_subvalues v
      simp only [subvalues, size, List.length_cons]
      omega
  | .layer _ (.scalar _) => rfl
  | .layer _ .nil => rfl

theorem length_subvaluesAll : (vs : List Value) → (subvaluesAll vs).length = sizeAll vs
  | [] => rfl
  | v :: vs => by
      rw [subvaluesAll, sizeAll, List.length_append, length_subvalues v, length_subvaluesAll vs]

theorem length_subvaluesFields :
    (fs : List (Field Value)) → (subvaluesFields fs).length = sizeFields fs
  | [] => rfl
  | ⟨_, _, _, v⟩ :: fs => by
      rw [subvaluesFields, sizeFields, List.length_append, length_subvalues v,
        length_subvaluesFields fs]

theorem length_subvaluesEntries :
    (es : List (String × Value)) → (subvaluesEntries es).length = sizeEntries es
  | [] => rfl
  | (_, v) :: es => by
      rw [subvaluesEntries, sizeEntries, List.length_append, length_subvalues v,
        length_subvaluesEntries es]

end

/-! ## Going one level down stays among them -/

theorem self_mem_subvalues (v : Value) : v ∈ v.subvalues := by
  unfold subvalues
  split <;> exact List.mem_cons_self

theorem subvaluesAll_eq (vs : List Value) : subvaluesAll vs = vs.flatMap subvalues := by
  induction vs with
  | nil => rfl
  | cons v vs ih => rw [subvaluesAll, ih, List.flatMap_cons]

theorem subvaluesFields_eq (fs : List (Field Value)) :
    subvaluesFields fs = (fs.map (·.value)).flatMap subvalues := by
  induction fs with
  | nil => rfl
  | cons f fs ih => rw [subvaluesFields, ih, List.map_cons, List.flatMap_cons]

theorem subvaluesEntries_eq (es : List (String × Value)) :
    subvaluesEntries es = (es.map (·.2)).flatMap subvalues := by
  induction es with
  | nil => rfl
  | cons e es ih => rw [subvaluesEntries, ih, List.map_cons, List.flatMap_cons]

/-- A value is written in another if it is the other or is written in one of its parts. -/
theorem subvalues_layer (name : Option String) (shape : Shape Value) :
    (layer name shape).subvalues = layer name shape :: shape.parts.flatMap subvalues := by
  match shape with
  | .scalar _ => rfl
  | .list _ elements zero => simp [subvalues, Shape.parts, subvaluesAll_eq]
  | .record fields => rw [subvalues, subvaluesFields_eq]; rfl
  | .map _ _ entries => rw [subvalues, subvaluesEntries_eq]; rfl
  | .pointer none zero => simp [subvalues, Shape.parts]
  | .pointer (some v) zero => simp [subvalues, Shape.parts]
  | .slot none => rfl
  | .slot (some v) => simp [subvalues, Shape.parts]
  | .nil => rfl

/-- Parts are smaller. -/
theorem size_lt_of_mem_parts {name : Option String} {shape : Shape Value} {v : Value}
    (h : v ∈ shape.parts) : v.size < (layer name shape).size := by
  have hlen := congrArg List.length (subvalues_layer name shape)
  rw [length_subvalues, List.length_cons] at hlen
  obtain ⟨pre, post, hsplit⟩ := List.append_of_mem h
  rw [hsplit, List.flatMap_append, List.flatMap_cons, List.length_append, List.length_append,
    length_subvalues] at hlen
  omega

theorem mem_subvalues_of_mem_parts {name : Option String} {shape : Shape Value} {u : Value}
    (hu : u ∈ shape.parts) {v : Value} (hv : layer name shape ∈ v.subvalues) :
    u ∈ v.subvalues := by
  induction hn : v.size using Nat.strongRecOn generalizing v with
  | ind n ih =>
      subst hn
      match v with
      | .declared .. =>
          rw [subvalues, List.mem_singleton] at hv
          cases hv
      | .layer name' shape' =>
          rw [subvalues_layer] at hv ⊢
          rcases List.mem_cons.mp hv with heq | hin
          · cases heq
            exact List.mem_cons_of_mem _ (List.mem_flatMap.mpr ⟨u, hu, u.self_mem_subvalues⟩)
          · obtain ⟨w, hw, hin⟩ := List.mem_flatMap.mp hin
            exact List.mem_cons_of_mem _ (List.mem_flatMap.mpr
              ⟨w, hw, ih w.size (size_lt_of_mem_parts hw) hin rfl⟩)

/-! ## The values of a value and a table -/

/-- All values that may be met below a value over a table of types. -/
def written (types : Types) (v : Value) : List Value :=
  v.subvalues ++ subvaluesAll types.values

theorem length_written (types : Types) (v : Value) :
    (written types v).length = v.size + sizeAll types.values := by
  rw [written, List.length_append, length_subvalues, length_subvaluesAll]

theorem mem_written_self (types : Types) (v : Value) : v ∈ written types v :=
  List.mem_append_left _ v.self_mem_subvalues

theorem mem_written_of_parts {types : Types} {v u : Value} {name : Option String}
    {shape : Shape Value} (hin : layer name shape ∈ written types v) (hu : u ∈ shape.parts) :
    u ∈ written types v := by
  rcases List.mem_append.mp hin with hin | hin
  · exact List.mem_append_left _ (mem_subvalues_of_mem_parts hu hin)
  · rw [subvaluesAll_eq] at hin
    obtain ⟨w, hw, hin⟩ := List.mem_flatMap.mp hin
    refine List.mem_append_right _ ?_
    rw [subvaluesAll_eq]
    exact List.mem_flatMap.mpr ⟨w, hw, mem_subvalues_of_mem_parts hu hin⟩

theorem mem_written_of_find? {types : Types} {v w : Value} {type : String}
    (h : types.find? type = some w) : w ∈ written types v := by
  refine List.mem_append_right _ ?_
  rw [subvaluesAll_eq]
  have hvalue : w ∈ types.values :=
    List.mem_map.mpr ⟨(type, w), Dictionary.mem_entries_of_find? h, rfl⟩
  exact List.mem_flatMap.mpr ⟨w, hvalue, w.self_mem_subvalues⟩

/-- The level that a value shows is written in one of the values. -/
theorem exists_layer_of_layerWithin? {types : Types} {v : Value} : ∀ {hops : Nat} {w : Value}
    {l : Layer}, w.layerWithin? types hops = some l → w ∈ written types v →
      ∃ name, layer name l.shape ∈ written types v
  | hops, .layer name shape, l, h, hin => by
      obtain rfl : (⟨name, shape⟩ : Layer) = l := by
        cases hops <;> exact Option.some.inj h
      exact ⟨name, hin⟩
  | 0, .declared name type, _, h, _ => nomatch h
  | hops + 1, .declared name type, l, h, _ => by
      rw [layerWithin?] at h
      obtain ⟨u, hu, h⟩ := Option.bind_eq_some_iff.mp h
      obtain ⟨l', hl', h⟩ := Option.bind_eq_some_iff.mp h
      obtain rfl := Option.some.inj h
      exact exists_layer_of_layerWithin? (l := l') hl' (mem_written_of_find? hu)

theorem mem_written_of_mem_parts {types : Types} {v w u : Value} {l : Layer}
    (hw : w ∈ written types v) (hl : w.layer? types = some l) (hu : u ∈ l.shape.parts) :
    u ∈ written types v := by
  obtain ⟨name, hin⟩ := exists_layer_of_layerWithin? hl hw
  exact mem_written_of_parts hin hu

end Value

end TypeOutline
