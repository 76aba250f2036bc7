import TypeOutline.Proofs.Derivation.Outline
import TypeOutline.Proofs.Derivation.Subvalues

/-!
# What a level leads to

All that is used of the content of a level, said once for every shape
(`content_fits`): which values it leads to, that members on nodes of
their own start from blank nodes, and what the level changes on its own
node besides.
-/

namespace TypeOutline

/-! ## The type that a node refers to -/

namespace Attributes

/-- In every dialect the node refers to the type that it refers to. -/
structure Consistent (a : Attributes) : Prop where
  typeRef_eq : a.typeRef = a.native.typeRef
  others : ∀ dialect b, dialect ≠ nativeDialect → a.override? dialect = some b → b.typeRef = ""

/-- The second node refers to the type that the first one refers to. -/
structure KeepsType (a b : Attributes) : Prop where
  typeRef_eq : b.native.typeRef = a.native.typeRef
  consistent : a.Consistent → b.Consistent

variable {a b c : Attributes}

theorem KeepsType.refl (a : Attributes) : a.KeepsType a := ⟨rfl, id⟩

theorem KeepsType.trans (h : a.KeepsType b) (h' : b.KeepsType c) : a.KeepsType c where
  typeRef_eq := h'.typeRef_eq.trans h.typeRef_eq
  consistent hc := h'.consistent (h.consistent hc)

theorem override?_modifyOverride (a : Attributes) (dialect : String) (f : Override → Override)
    (k : String) : (a.modifyOverride dialect f).override? k =
      if k = dialect then some (f ((a.override? dialect).getD (.fresh dialect)))
      else a.override? k := by
  unfold override? modifyOverride
  rw [Dictionary.find?_update]

theorem native_modifyNative (a : Attributes) (f : Override → Override) :
    (a.modifyNative f).native = f a.native := by
  rw [native, modifyNative, override?_modifyOverride, if_pos rfl]
  rfl

/-- Changing a block without its type. -/
theorem keepsType_modifyOverride (a : Attributes) (dialect : String) {f : Override → Override}
    (hf : ∀ b, (f b).typeRef = b.typeRef) : a.KeepsType (a.modifyOverride dialect f) := by
  have htype : (a.modifyOverride dialect f).native.typeRef = a.native.typeRef := by
    rw [native, override?_modifyOverride, native]
    split
    · rename_i h
      subst h
      rw [Option.getD_some, hf]
    · rfl
  refine ⟨htype, fun hc => ⟨hc.typeRef_eq.trans htype.symm, fun k b hk hb => ?_⟩⟩
  rw [override?_modifyOverride] at hb
  split at hb
  · rename_i h
    subst h
    obtain rfl := Option.some.inj hb
    rw [hf]
    cases hold : a.override? k with
    | none => rfl
    | some b => exact hc.others k b hk hold
  · exact hc.others k b hk hb

theorem keepsType_modifyOptions (a : Attributes) (f : OptionSet → OptionSet) :
    a.KeepsType (a.modifyOptions f) :=
  keepsType_modifyOverride a nativeDialect (by exact fun _ => rfl)

theorem defect_modifyOptions (a : Attributes) (f : OptionSet → OptionSet) :
    (a.modifyOptions f).defect = a.defect := rfl

theorem keepsType_fail (a : Attributes) (d : Defect) : a.KeepsType (a.fail d) :=
  ⟨rfl, fun h => ⟨h.typeRef_eq, h.others⟩⟩

theorem keepsType_nullable (a : Attributes) : a.KeepsType { a with nullable := true } :=
  ⟨rfl, fun h => ⟨h.typeRef_eq, h.others⟩⟩

/-- Writing a type over the one that was there. -/
theorem Consistent.modifyNative (h : a.Consistent) {f : Override → Override} {n : String}
    (hf : ∀ b, (f b).typeRef = n) :
    ({ a with typeRef := n }.modifyNative f).Consistent where
  typeRef_eq := by rw [native_modifyNative, hf]; rfl
  others k b hk hb := by
    rw [Attributes.modifyNative, override?_modifyOverride, if_neg hk] at hb
    exact h.others k b hk hb

theorem keepsType_classify (a : Attributes) (kind : Kind) : a.KeepsType (a.classify kind) := by
  have hkeeps : a.KeepsType { a with generic := .ofKind kind, invalidKind := none } :=
    ⟨rfl, fun h => ⟨h.typeRef_eq, h.others⟩⟩
  exact hkeeps.trans (keepsType_modifyOptions _ (·.set "kind" kind.name))

theorem keepsType_typed (a : Attributes) (kind : Kind) : a.KeepsType (a.typed kind) :=
  (keepsType_classify a kind).trans
    (keepsType_modifyOverride _ nativeDialect (by exact fun _ => rfl))

theorem typeRef_declare (a : Attributes) (n : String) : (a.declare n).native.typeRef = n := by
  rw [declare, native_modifyNative]

theorem Consistent.declare (h : a.Consistent) (n : String) : (a.declare n).Consistent :=
  h.modifyNative (by exact fun _ => rfl)

/-- The type that a node refers to after the head of a level. -/
theorem typeRef_head (a : Attributes) (kind : Kind) (ruling : Ruling) :
    (a.head kind ruling).native.typeRef = ruling.name?.getD a.native.typeRef := by
  cases ruling with
  | unsupported => exact (keepsType_classify a kind).typeRef_eq
  | misplaced => exact (keepsType_classify a kind).typeRef_eq
  | cycle n => exact typeRef_declare (a.typed kind) n
  | enters name =>
      cases name with
      | none => exact (keepsType_typed a kind).typeRef_eq
      | some n => exact typeRef_declare (a.typed kind) n

theorem Consistent.head (h : a.Consistent) (kind : Kind) (ruling : Ruling) :
    (a.head kind ruling).Consistent := by
  have hclassify := (keepsType_classify a kind).consistent h
  have htyped := (keepsType_typed a kind).consistent h
  cases ruling with
  | unsupported => exact ⟨hclassify.typeRef_eq, hclassify.others⟩
  | misplaced => exact ⟨hclassify.typeRef_eq, hclassify.others⟩
  | cycle n => exact ⟨(htyped.declare n).typeRef_eq, (htyped.declare n).others⟩
  | enters name =>
      cases name with
      | none => exact htyped
      | some n => exact htyped.declare n

/-! ## Blank nodes -/

/-- The node failed before a level was looked at only if it is that of a repeated map key. -/
def Arrives (a : Attributes) : Prop := a.defect = none ∨ a.defect = some .duplicateMapKey

theorem Arrives.defect_ne (h : a.Arrives) : a.defect ≠ some .cyclicalReference := by
  rcases h with h | h
  · exact fun hcyc => nomatch h.symm.trans hcyc
  · exact fun hcyc => nomatch h.symm.trans hcyc

/-- The attributes of a node that no level has written on. -/
structure Blank (a : Attributes) : Prop where
  typeRef_eq : a.native.typeRef = ""
  consistent : a.Consistent
  arrives : a.Arrives

theorem Blank.of_keepsType (h : a.Blank) (hk : a.KeepsType b) (hb : b.Arrives) : b.Blank where
  typeRef_eq := hk.typeRef_eq.trans h.typeRef_eq
  consistent := hk.consistent h.consistent
  arrives := hb

end Attributes

open Attributes

theorem blank_new (name : String) : ({ name := name } : Attributes).Blank where
  typeRef_eq := rfl
  consistent := ⟨rfl, fun k b hk hb => by
    rw [override?, Dictionary.find?_single, if_neg hk] at hb
    cases hb⟩
  arrives := .inl rfl

theorem blank_fieldAttributes {α : Type} (f : Field α) : (Schema.fieldAttributes f).Blank := by
  have hfold : ∀ (es : List (String × Tag)) (a : Attributes), a.Blank →
      (es.foldl (fun a e => a.modifyOverride e.1 (·.apply e.2)) a).Blank := by
    intro es
    induction es with
    | nil => exact fun _ h => h
    | cons e es ih =>
        intro a h
        exact ih _ (h.of_keepsType (keepsType_modifyOverride a e.1 (by exact fun _ => rfl))
          h.arrives)
  exact hfold _ _ (blank_new f.name)

theorem blank_memberAttributes (m : Schema.Member) : m.attributes.Blank := by
  have hname : (if m.name = m.key then ({ name := m.name } : Attributes)
      else ({ name := m.name } : Attributes).modifyNative fun b => { b with name := m.key }
      ).Blank := by
    split
    · exact blank_new m.name
    · exact (blank_new m.name).of_keepsType
        (keepsType_modifyOverride _ nativeDialect (by exact fun _ => rfl)) (.inl rfl)
  unfold Schema.Member.attributes
  dsimp only
  split
  · exact hname.of_keepsType ((keepsType_fail _ _).trans
      (keepsType_modifyOverride _ nativeDialect (by exact fun _ => rfl))) (.inr rfl)
  · exact hname

/-- No member of a record arrives with a defect. -/
theorem defect_fieldAttributes {α : Type} (f : Field α) :
    (Schema.fieldAttributes f).defect = none := by
  have hfold : ∀ (es : List (String × Tag)) (a : Attributes), a.defect = none →
      (es.foldl (fun a e => a.modifyOverride e.1 (·.apply e.2)) a).defect = none := by
    intro es
    induction es with
    | nil => exact fun _ h => h
    | cons e es ih => exact fun _ h => ih _ h
  exact hfold _ _ rfl

/-- An entry of a map arrives with a defect if its name is repeated. -/
theorem defect_attributes (m : Schema.Member) :
    m.attributes.defect = if m.repeated then some .duplicateMapKey else none := by
  unfold Schema.Member.attributes
  dsimp only
  split
  · rfl
  · split <;> rfl

/-! ## The members of maps -/

theorem value_mem_of_mem_markRepeated {m : Schema.Member} : ∀ {before : Option String}
    {ms : List Schema.Member}, m ∈ Schema.markRepeated before ms → ∃ m' ∈ ms, m'.value = m.value
  | _, [], h => absurd h List.not_mem_nil
  | before, m' :: ms, h => by
      rw [Schema.markRepeated] at h
      rcases List.mem_cons.mp h with rfl | h
      · exact ⟨m', List.mem_cons_self, rfl⟩
      · obtain ⟨m'', hm'', hv⟩ := value_mem_of_mem_markRepeated h
        exact ⟨m'', List.mem_cons_of_mem m' hm'', hv⟩

/-- A map has no members but the values of its entries. -/
theorem value_mem_of_mem_members {m : Schema.Member} {entries : List (String × Value)}
    (h : m ∈ Schema.members entries) : m.value ∈ entries.map (·.2) := by
  obtain ⟨m', hm', hv⟩ := value_mem_of_mem_markRepeated h
  obtain ⟨e, he, rfl⟩ := List.mem_map.mp (List.mem_mergeSort.mp hm')
  rw [← hv]
  exact List.mem_map_of_mem he

/-- The entries of a map that are in order already. -/
theorem members_of_pairwise {entries : List (String × Value)}
    (h : (entries.map fun e => ({ name := Text.capitalize e.1, key := e.1, value := e.2 } :
      Schema.Member)).Pairwise (fun a b => a.le b = true)) :
    Schema.members entries = Schema.markRepeated none
      (entries.map fun e => { name := Text.capitalize e.1, key := e.1, value := e.2 }) := by
  rw [Schema.members, List.mergeSort_of_pairwise h]

/-! ## Contents -/

/-- The kind of the shape is that of an optional or a slot. -/
def Shape.isWrapper {α : Type} (shape : Shape α) : Bool :=
  (Generic.ofKind shape.kind).category == .reference

/-- The shape is an atomic value of a known type, which refers to no named type. -/
def Shape.isAtomic {α : Type} (shape : Shape α) : Bool :=
  (Generic.ofKind shape.kind).category == .known

/-- What the content of a shape is, on a node with the attributes `a`. -/
def Content.Fits (a : Attributes) (shape : Shape Value) : Content → Prop
  | .leaf b => (a.defect ≠ some .cyclicalReference → b.defect ≠ some .cyclicalReference)
      ∧ (a.Consistent → b.Consistent)
      ∧ b.native.typeRef = if shape.isAtomic then "" else a.native.typeRef
  | .same b v => shape.isWrapper = true ∧ shape.isAtomic = false ∧ v ∈ shape.members
      ∧ b.defect = a.defect ∧ a.KeepsType b
  | .each b members => shape.isWrapper = false ∧ shape.isAtomic = false ∧ b.defect = none
      ∧ a.KeepsType b ∧ ∀ m ∈ members, m.1.Blank ∧ m.2 ∈ shape.members
  | .probed b elements => shape.isWrapper = false ∧ shape.isAtomic = false ∧ b.defect = none
      ∧ a.KeepsType b ∧ (∀ v ∈ elements, v ∈ shape.members) ∧ elements ≠ []

variable {a : Attributes}

theorem fits_leaf {b : Attributes} {shape : Shape Value} (hshape : shape.isAtomic = false)
    (hdefect : a.defect ≠ some .cyclicalReference → b.defect ≠ some .cyclicalReference)
    (hkeeps : a.KeepsType b) : (Content.leaf b).Fits a shape := by
  refine ⟨hdefect, hkeeps.consistent, ?_⟩
  rw [hshape]
  exact hkeeps.typeRef_eq

theorem fits_leaf_self {shape : Shape Value} (hshape : shape.isAtomic = false) :
    (Content.leaf a).Fits a shape :=
  fits_leaf hshape id (.refl a)

theorem fits_leaf_of_defect {b : Attributes} {shape : Shape Value} {d : Defect}
    (hshape : shape.isAtomic = false) (hdefect : b.defect = some d)
    (hd : d ≠ .cyclicalReference) (hkeeps : a.KeepsType b) : (Content.leaf b).Fits a shape :=
  fits_leaf hshape (fun _ h => hd (Option.some.inj (hdefect.symm.trans h))) hkeeps

theorem defect_eq_none_of_isSome {a : Attributes} (h : ¬ a.defect.isSome = true) :
    a.defect = none :=
  Option.not_isSome_iff_eq_none.mp h

/-- What the content of a level is, by its shape. -/
theorem content_fits (a : Attributes) (shape : Shape Value) :
    (shape.content a).Fits a shape := by
  cases shape with
  | scalar kind =>
      rw [Shape.content, settleScalar]
      split
      · rename_i h
        have hatomic : (Shape.scalar kind : Shape Value).isAtomic = true := beq_iff_eq.mpr h
        refine ⟨id, fun hc => hc.modifyNative (by exact fun _ => rfl), ?_⟩
        rw [hatomic, native_modifyNative]
        rfl
      · rename_i h
        exact fits_leaf_self (beq_eq_false_iff_ne.mpr h)
  | list fixed elements zero =>
      have hwrap : (Shape.list fixed elements zero).isWrapper = false := by
        cases fixed <;> rfl
      have hatomic : (Shape.list fixed elements zero).isAtomic = false := by
        cases fixed <;> rfl
      have hkeeps := keepsType_modifyOptions a (·.set "len" (toString elements.length))
      dsimp only [Shape.content]
      split
      · exact fits_leaf hatomic id hkeeps
      · rename_i hd
        split
        · rename_i hempty
          refine ⟨hwrap, hatomic, defect_eq_none_of_isSome hd, hkeeps, fun m hm => ?_⟩
          rw [List.mem_singleton.mp hm]
          refine ⟨blank_new "", ?_⟩
          rw [Shape.members, if_pos hempty]
          exact List.mem_singleton_self zero
        · rename_i hempty
          refine ⟨hwrap, hatomic, defect_eq_none_of_isSome hd, hkeeps, fun v hv => ?_,
            fun hnil => hempty (List.isEmpty_iff.mpr hnil)⟩
          rw [Shape.members, if_neg hempty]
          exact hv
  | record fields =>
      dsimp only [Shape.content]
      split
      · exact fits_leaf_self rfl
      · rename_i hd
        split
        · exact fits_leaf_of_defect rfl rfl (by decide) (keepsType_fail a _)
        · split
          · exact fits_leaf_of_defect rfl rfl (by decide) (keepsType_fail a _)
          · refine ⟨rfl, rfl, defect_eq_none_of_isSome hd, .refl a, fun m hm => ?_⟩
            obtain ⟨f, hf, rfl⟩ := List.mem_map.mp hm
            exact ⟨blank_fieldAttributes f, List.mem_map_of_mem hf⟩
  | map key keyType entries =>
      rw [Shape.content]
      split
      · exact fits_leaf_self rfl
      · rename_i hd
        split
        · exact fits_leaf_of_defect rfl rfl (by decide) ((keepsType_fail a _).trans
            (keepsType_modifyOverride _ nativeDialect (by exact fun _ => rfl)))
        · split
          · exact fits_leaf_of_defect rfl rfl (by decide) (keepsType_fail a _)
          · refine ⟨rfl, rfl, defect_eq_none_of_isSome hd, .refl a, fun m hm => ?_⟩
            obtain ⟨m', hm', rfl⟩ := List.mem_map.mp hm
            exact ⟨blank_memberAttributes m', value_mem_of_mem_members hm'⟩
  | slot target =>
      cases target with
      | none =>
          exact fits_leaf_of_defect rfl rfl (by decide)
            ⟨rfl, fun h => ⟨h.typeRef_eq, h.others⟩⟩
      | some v => exact ⟨rfl, rfl, List.mem_singleton_self v, rfl, keepsType_nullable a⟩
  | pointer target zero =>
      have hkeeps := keepsType_modifyOptions a (·.setBool "is_nil" target.isNone)
      dsimp only [Shape.content]
      split
      · exact fits_leaf rfl id hkeeps
      · exact ⟨rfl, rfl, List.mem_singleton_self _, rfl, hkeeps.trans (keepsType_nullable _)⟩
  | nil => exact fits_leaf_self rfl

/-! ## The positions of the members -/

section Sites

variable {shape : Shape Value} {top : Bool} {above : Finset String} {p q : Site} {l : Layer}
  {types : Types}

theorem above_of_mem_sites {c : Content} (hq : q ∈ c.sites top above) : q.above = above := by
  cases c with
  | leaf a => exact absurd hq List.not_mem_nil
  | same a v => rw [List.mem_singleton.mp hq]
  | each a members =>
      obtain ⟨m, -, rfl⟩ := List.mem_map.mp hq
      rfl
  | probed a elements =>
      obtain ⟨v, -, rfl⟩ := List.mem_map.mp hq
      rfl

/-- A member on the same node is at the top if its wrapper is; any other
member is not, and starts from a blank node. -/
theorem mem_sites (hq : q ∈ (shape.content a).sites top above) :
    q.value ∈ shape.members ∧ q.top = (top && shape.isWrapper)
      ∧ (a.defect ≠ some .cyclicalReference → q.attrs.defect ≠ some .cyclicalReference) := by
  have hfits := content_fits a shape
  cases hc : shape.content a with
  | leaf b =>
      rw [hc] at hq
      exact absurd hq List.not_mem_nil
  | same b v =>
      rw [hc] at hq hfits
      obtain ⟨hwrap, -, hv, hdefect, -⟩ := hfits
      rw [List.mem_singleton.mp hq, hwrap, Bool.and_true]
      refine ⟨hv, rfl, fun h => ?_⟩
      rw [hdefect]
      exact h
  | each b members =>
      rw [hc] at hq hfits
      obtain ⟨hwrap, -, -, -, hmembers⟩ := hfits
      obtain ⟨m, hm, rfl⟩ := List.mem_map.mp hq
      rw [hwrap, Bool.and_false]
      exact ⟨(hmembers m hm).2, rfl, fun _ => (hmembers m hm).1.arrives.defect_ne⟩
  | probed b elements =>
      rw [hc] at hq hfits
      obtain ⟨hwrap, -, -, -, helements, -⟩ := hfits
      obtain ⟨v, hv, rfl⟩ := List.mem_map.mp hq
      rw [hwrap, Bool.and_false]
      exact ⟨helements v hv, rfl, fun _ => (blank_new "").arrives.defect_ne⟩

theorem declares?_of_enters {name : Option String} (h : l.ruling top above = .enters name) :
    l.declares? = name ∧ ∀ n, name = some n → n ∉ above := by
  unfold Layer.ruling at h
  split at h
  · cases h
  · split at h
    · cases h
    · split at h
      · rename_i hnone
        cases h
        exact ⟨hnone, fun n hn => nomatch hn⟩
      · rename_i n hsome
        split at h
        · cases h
        · rename_i hnot
          cases h
          exact ⟨hsome, fun n hn => Option.some.inj hn ▸ hnot⟩

theorem defect_head_enters (a : Attributes) (kind : Kind) (name : Option String) :
    (a.head kind (.enters name)).defect = a.defect := by
  cases name <;> rfl

theorem generic_head (a : Attributes) (kind : Kind) (ruling : Ruling) :
    (a.head kind ruling).generic = .ofKind kind := by
  cases ruling with
  | enters name => cases name <;> rfl
  | _ => rfl

/-- No level makes its node a top. -/
theorem isRoot_head (a : Attributes) (kind : Kind) (ruling : Ruling) :
    (a.head kind ruling).isRoot = false := by
  rw [isRoot, generic_head]
  cases kind <;> rfl

/-- What is known of the position of a member. -/
theorem mem_members (hl : p.value.layer? types = some l) (hq : q ∈ p.members types) :
    q.value ∈ l.shape.members ∧ q.above = declaredBelow p.above l.declares?
      ∧ q.top = (p.top && l.isWrapper)
      ∧ (p.attrs.defect ≠ some .cyclicalReference → q.attrs.defect ≠ some .cyclicalReference)
      ∧ ∀ n, l.declares? = some n → n ∉ p.above := by
  obtain ⟨name, hr⟩ := exists_enters_of_mem_members hl hq
  obtain ⟨hname, hfresh⟩ := declares?_of_enters hr
  rw [members_of_enters hl hr] at hq
  obtain ⟨hvalue, htop, hdefect⟩ := mem_sites hq
  rw [defect_head_enters] at hdefect
  rw [hname]
  exact ⟨hvalue, above_of_mem_sites hq, htop, hdefect, hfresh⟩

end Sites

end TypeOutline
