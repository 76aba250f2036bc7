import Mathlib.Data.List.Nodup
import TypeOutline.Proofs.Derivation.Subvalues
import TypeOutline.Proofs.Related

/-!
# Values that differ in tags and in the order of map entries

`Value.Like T` relates two values that are the same but for two things, at
any number of places and depths: the tags of members, which are related by
`T`, and the order of the entries of maps whose keys are distinct.

What a derivation reads of a value is alike then. Both values show alike
levels (`layer?_like`), and a map has alike members in the order in which
they are visited (`forall₂_members`): they are sorted by name and key, and
that order tells entries with different keys apart even where the keys
have one capitalized form. The bound on the depth of the walk is the same
(`depthBound_eq_of_like`).
-/

namespace TypeOutline

/-! ## Likeness -/

section Relations

variable {α : Type}

/-- Map entries under one key. -/
inductive Entry.Like (R : α → α → Prop) : String × α → String × α → Prop
  | intro (key : String) {v w : α} : R v w → Like R (key, v) (key, w)

/-- Members that differ in their tags and their values. -/
inductive Field.Like (T : String → String → Prop) (R : α → α → Prop) : Field α → Field α → Prop
  | intro (name : String) (exported : Bool) {tag tag' : String} {v w : α} :
      T tag tag' → R v w → Like T R ⟨name, exported, tag, v⟩ ⟨name, exported, tag', w⟩

/-- Shapes with members alike, the entries of maps with distinct keys in any order. -/
inductive Shape.Like (T : String → String → Prop) (R : α → α → Prop) : Shape α → Shape α → Prop
  | scalar (kind : Kind) : Like T R (.scalar kind) (.scalar kind)
  | list (fixed : Bool) {vs ws : List α} {zero zero' : α} :
      List.Forall₂ R vs ws → R zero zero' → Like T R (.list fixed vs zero) (.list fixed ws zero')
  | record {fs gs : List (Field α)} :
      List.Forall₂ (Field.Like T R) fs gs → Like T R (.record fs) (.record gs)
  | map (key : Kind) (keyType : String) {es fs : List (String × α)} :
      List.Forall₂ (Entry.Like R) es fs → Like T R (.map key keyType es) (.map key keyType fs)
  | permuted (key : Kind) (keyType : String) {es es' fs : List (String × α)} :
      (es.map (·.1)).Nodup → es.Perm es' → List.Forall₂ (Entry.Like R) es' fs →
        Like T R (.map key keyType es) (.map key keyType fs)
  | absent {zero zero' : α} :
      R zero zero' → Like T R (.pointer none zero) (.pointer none zero')
  | present {v w zero zero' : α} :
      R v w → R zero zero' → Like T R (.pointer (some v) zero) (.pointer (some w) zero')
  | emptySlot : Like T R (.slot none) (.slot none)
  | slot {v w : α} : R v w → Like T R (.slot (some v)) (.slot (some w))
  | nil : Like T R .nil .nil

end Relations

/-- The values differ at most in the tags of members, which are related by
`T`, and in the order of the entries of maps whose keys are distinct. -/
inductive Value.Like (T : String → String → Prop) : Value → Value → Prop
  | layer (name : Option String) {shape shape' : Shape Value} :
      Shape.Like T (Value.Like T) shape shape' → Like T (.layer name shape) (.layer name shape')
  | declared (name : Option String) (type : String) :
      Like T (.declared name type) (.declared name type)

/-- The tables have values alike under the same types. -/
def Types.Like (T : String → String → Prop) (types types' : Types) : Prop :=
  List.Forall₂ (Entry.Like (Value.Like T)) types.entries types'.entries

/-- Levels with the same declared name and shapes alike. -/
structure Layer.Like (T : String → String → Prop) (l l' : Layer) : Prop where
  typeName_eq : l.typeName = l'.typeName
  shape : Shape.Like T (Value.Like T) l.shape l'.shape

variable {α : Type} {T : String → String → Prop} {R : α → α → Prop}

/-! ## Lists alike -/

theorem forall₂_snd {es fs : List (String × α)} (h : List.Forall₂ (Entry.Like R) es fs) :
    List.Forall₂ R (es.map (·.2)) (fs.map (·.2)) := by
  rw [List.forall₂_map_left_iff, List.forall₂_map_right_iff]
  refine h.imp ?_
  rintro _ _ ⟨-, hvw⟩
  exact hvw

theorem forall₂_value {fs gs : List (Field α)} (h : List.Forall₂ (Field.Like T R) fs gs) :
    List.Forall₂ R (fs.map (·.value)) (gs.map (·.value)) := by
  rw [List.forall₂_map_left_iff, List.forall₂_map_right_iff]
  refine h.imp ?_
  rintro _ _ ⟨-, -, -, hvw⟩
  exact hvw

theorem forall₂_filter_exported {fs gs : List (Field α)} (h : List.Forall₂ (Field.Like T R) fs gs) :
    List.Forall₂ (Field.Like T R) (fs.filter (·.exported)) (gs.filter (·.exported)) := by
  refine List.rel_filter (fun f g hfg => ?_) h
  cases hfg
  exact Iff.rfl

theorem rel_lookup {es fs : List (String × α)} (h : List.Forall₂ (Entry.Like R) es fs)
    (key : String) : Option.Rel R (es.lookup key) (fs.lookup key) := by
  induction h with
  | nil => exact .none
  | cons he _ ih =>
      obtain ⟨k, hvw⟩ := he
      rw [List.lookup_cons, List.lookup_cons]
      cases key == k with
      | true => exact .some hvw
      | false => exact ih

namespace Shape

theorem Like.kind_eq {shape shape' : Shape α} (h : Like T R shape shape') :
    shape.kind = shape'.kind := by
  cases h with
  | list fixed _ _ => cases fixed <;> rfl
  | _ => rfl

/-- The parts of the first shape are, in some order, like those of the second. -/
theorem Like.exists_parts {shape shape' : Shape α} (h : Like T R shape shape') :
    ∃ ps, shape.parts.Perm ps ∧ List.Forall₂ R ps shape'.parts := by
  cases h with
  | scalar _ => exact ⟨[], .refl _, .nil⟩
  | list _ hvs hzero => exact ⟨_, .refl _, List.rel_append hvs (.cons hzero .nil)⟩
  | record hfs => exact ⟨_, .refl _, forall₂_value hfs⟩
  | map _ _ hes => exact ⟨_, .refl _, forall₂_snd hes⟩
  | permuted _ _ _ hperm hes => exact ⟨_, hperm.map _, forall₂_snd hes⟩
  | absent hzero => exact ⟨_, .refl _, .cons hzero .nil⟩
  | present hv hzero => exact ⟨_, .refl _, .cons hv (.cons hzero .nil)⟩
  | emptySlot => exact ⟨[], .refl _, .nil⟩
  | slot hv => exact ⟨_, .refl _, .cons hv .nil⟩
  | nil => exact ⟨[], .refl _, .nil⟩

end Shape

/-! ## Sizes -/

namespace Value

theorem size_layer (name : Option String) (shape : Shape Value) :
    (layer name shape).size = sizeAll shape.parts + 1 := by
  rw [← length_subvalues, subvalues_layer, List.length_cons, ← length_subvaluesAll, subvaluesAll_eq]

theorem sizeAll_eq_of_perm {vs ws : List Value} (h : vs.Perm ws) : sizeAll vs = sizeAll ws := by
  rw [← length_subvaluesAll, ← length_subvaluesAll, subvaluesAll_eq, subvaluesAll_eq]
  exact (h.flatMap_right _).length_eq

theorem sizeAll_eq_of_map {vs ws : List Value} (h : vs.map size = ws.map size) :
    sizeAll vs = sizeAll ws := by
  induction vs generalizing ws with
  | nil =>
      obtain rfl := List.map_eq_nil_iff.mp h.symm
      rfl
  | cons v vs ih =>
      obtain ⟨w, ws, rfl, hw, hws⟩ := List.map_eq_cons_iff.mp h.symm
      rw [sizeAll, sizeAll, hw, ih hws.symm]

theorem size_eq_of_like {v w : Value} (h : v.Like T w) : v.size = w.size := by
  cases h with
  | declared name type => rfl
  | @layer name shape shape' h =>
      obtain ⟨ps, hperm, hps⟩ := h.exists_parts
      have hsizes : ps.map size = shape'.parts.map size := by
        refine map_eq_of_forall₂ hps fun p hp q hpq => ?_
        have hlt : p.size < (layer name shape).size :=
          size_lt_of_mem_parts (hperm.mem_iff.mpr hp)
        exact size_eq_of_like hpq
      rw [size_layer, size_layer, sizeAll_eq_of_perm hperm, sizeAll_eq_of_map hsizes]
termination_by v.size

theorem depthBound_eq_of_like {types types' : Types} {v w : Value} (ht : Types.Like T types types')
    (h : v.Like T w) : v.depthBound types = w.depthBound types' := by
  have htable : sizeAll types.values = sizeAll types'.values := by
    exact sizeAll_eq_of_map (map_eq_of_forall₂ (forall₂_snd ht) fun _ _ _ => size_eq_of_like)
  rw [depthBound, depthBound, size_eq_of_like h, htable]

/-! ## Levels -/

theorem layerWithin?_like {types types' : Types} (ht : Types.Like T types types') :
    ∀ (hops : Nat) {v w : Value}, v.Like T w →
      Option.Rel (Layer.Like T) (v.layerWithin? types hops) (w.layerWithin? types' hops)
  | 0, _, _, .layer _ h => .some ⟨rfl, h⟩
  | 0, _, _, .declared .. => .none
  | hops + 1, _, _, .layer _ h => .some ⟨rfl, h⟩
  | hops + 1, _, _, .declared name type => by
      refine rel_bind (rel_lookup ht type) fun v w _ hvw => ?_
      refine rel_bind (layerWithin?_like ht hops hvw) fun l l' _ hl => ?_
      exact .some ⟨congrArg (name <|> ·) hl.typeName_eq, hl.shape⟩

/-- Values alike show levels alike. -/
theorem layer?_like {types types' : Types} {v w : Value} (ht : Types.Like T types types')
    (h : v.Like T w) : Option.Rel (Layer.Like T) (v.layer? types) (w.layer? types') := by
  have hsize : types.size = types'.size := ht.length_eq
  rw [layer?, layer?, hsize]
  exact layerWithin?_like ht _ h

end Value

/-! ## The members of maps -/

namespace Schema

/-- Members that differ in their values. -/
inductive Member.Like (R : Value → Value → Prop) : Member → Member → Prop
  | intro (name key : String) (repeated : Bool) {v w : Value} :
      R v w → Like R ⟨name, key, v, repeated⟩ ⟨name, key, w, repeated⟩

variable {R : Value → Value → Prop}

theorem Member.le_iff {a b : Member} :
    a.le b = true ↔ a.name < b.name ∨ a.name = b.name ∧ a.key ≤ b.key := by
  simp [Member.le]

theorem Member.le_trans (a b c : Member) (hab : a.le b = true) (hbc : b.le c = true) :
    a.le c = true := by
  rw [le_iff] at hab hbc ⊢
  rcases hab with hab | ⟨hab, hkab⟩
  · rcases hbc with hbc | ⟨hbc, -⟩
    · exact .inl (String.lt_trans hab hbc)
    · exact .inl (hbc ▸ hab)
  · rcases hbc with hbc | ⟨hbc, hkbc⟩
    · exact .inl (hab ▸ hbc)
    · exact .inr ⟨hab.trans hbc, String.le_trans hkab hkbc⟩

theorem Member.le_total (a b : Member) : (a.le b || b.le a) = true := by
  rw [Bool.or_eq_true, le_iff, le_iff]
  by_cases h : a.name = b.name
  · rcases String.le_total a.key b.key with hk | hk
    · exact .inl (.inr ⟨h, hk⟩)
    · exact .inr (.inr ⟨h.symm, hk⟩)
  · by_cases hlt : a.name < b.name
    · exact .inl (.inl hlt)
    · exact .inr (.inl (Std.lt_of_le_of_ne hlt (Ne.symm h)))

/-- The order of visits tells members with different keys apart, even where
they have one name. -/
theorem Member.key_eq_of_le {a b : Member} (hab : a.le b = true) (hba : b.le a = true) :
    a.key = b.key := by
  rw [le_iff] at hab hba
  rcases hab with hab | ⟨hab, hkab⟩
  · rcases hba with hba | ⟨hba, -⟩
    · exact absurd (String.lt_trans hab hba) (String.lt_irrefl _)
    · exact absurd (hba ▸ hab) (String.lt_irrefl _)
  · rcases hba with hba | ⟨-, hkba⟩
    · exact absurd (hab ▸ hba) (String.lt_irrefl _)
    · exact String.le_antisymm hkab hkba

theorem forall₂_markRepeated : ∀ {ms ns : List Member} (before : Option String),
    List.Forall₂ (Member.Like R) ms ns →
      List.Forall₂ (Member.Like R) (markRepeated before ms) (markRepeated before ns)
  | _, _, _, .nil => .nil
  | _, _, _, .cons (.intro name key _ h) hs =>
      .cons (.intro name key _ h) (forall₂_markRepeated (some name) hs)

/-- Entries under the same keys are members alike. -/
theorem forall₂_members {es fs : List (String × Value)} (h : List.Forall₂ (Entry.Like R) es fs) :
    List.Forall₂ (Member.Like R) (members es) (members fs) := by
  refine forall₂_markRepeated none (forall₂_mergeSort ?_ ?_)
  · rintro _ _ _ _ ⟨⟩ ⟨⟩
    rfl
  · rw [List.forall₂_map_left_iff, List.forall₂_map_right_iff]
    refine h.imp ?_
    rintro _ _ ⟨key, hvw⟩
    exact .intro _ key false hvw

/-- Entries with distinct keys are the same members in whatever order they come. -/
theorem members_eq_of_perm {es fs : List (String × Value)} (hkeys : (es.map (·.1)).Nodup)
    (h : es.Perm fs) : members es = members fs := by
  rw [members, members]
  congr 1
  refine mergeSort_eq_of_perm Member.le_trans Member.le_total ?_ (h.map _)
  intro a ha b hb hab hba
  obtain ⟨e, he, rfl⟩ := List.mem_map.mp ha
  obtain ⟨f, hf, rfl⟩ := List.mem_map.mp hb
  rw [List.inj_on_of_nodup_map hkeys he hf (Member.key_eq_of_le hab hba)]

end Schema

end TypeOutline
