import TypeOutline.Proofs.Derivation.Paths
import TypeOutline.Proofs.Rendering.Shown

/-!
# Values of described types

A table describes types level by level, without slots and maps. A value
has a type if all that it unfolds into does, which a value that unfolds
without end can do as well: typing is the greatest relation that agrees
with the table on every level (`Value.HasType`).

What a level of such a value gives depends on its type alone, but for
the names above it: `gives_content` says what its content can be, and
`typed_succ_cases` all that the level can do.
-/

namespace TypeOutline

/-! ## Types -/

/-- One level of a type. The types of its members are keys of a table. -/
inductive TypeForm where
  | scalar (kind : Kind)
  | list (fixed : Bool) (element : String)
  | optional (target : String)
  | record (fields : List (Field String))

namespace TypeForm

def kind : TypeForm → Kind
  | scalar kind => kind
  | list true _ => .array
  | list false _ => .vec
  | optional _ => .option
  | record _ => .struct

/-- The values of the type may have members on nodes of their own. -/
def isCompound : TypeForm → Bool
  | list .. | record _ => true
  | scalar _ | optional _ => false

/-- What is known of the nodes of the members before they are derived, and their types. -/
def members : TypeForm → List (Attributes × String)
  | scalar _ | optional _ => []
  | list _ element => [({ name := "" }, element)]
  | record fields => (fields.filter (·.exported)).map fun f => (Schema.fieldAttributes f, f.value)

/-- The defect that all values of the type have. -/
def defect? : TypeForm → Option Defect
  | record fields =>
      if fields.isEmpty then some .emptyStruct
      else if (fields.filter (·.exported)).isEmpty then some .noExportedFields
      else none
  | scalar _ | list .. | optional _ => none

end TypeForm

/-- A type: the name that it is declared under, if any, and its first level. -/
structure TypeDesc where
  name : Option String := none
  form : TypeForm

/-- The name that a level of the type declares. -/
def TypeDesc.declares? (d : TypeDesc) : Option String := d.name.filter (· ≠ d.form.kind.name)

/-- The types under their keys. -/
abbrev TypeTable := Dictionary TypeDesc

/-- Declared names are not empty, they tell types apart, and no optional has one. -/
structure TypeTable.WellFormed (table : TypeTable) : Prop where
  name_ne : ∀ key d, table.find? key = some d → d.declares? ≠ some ""
  unique : ∀ key key' d d' n, table.find? key = some d → table.find? key' = some d' →
    d.declares? = some n → d'.declares? = some n → d = d'
  optional : ∀ key d target, table.find? key = some d → d.form = .optional target →
    d.declares? = none

/-! ## Values of a type -/

section Fits

variable (T : Value → String → Prop)

structure Field.Fits (f : Field String) (g : Field Value) : Prop where
  name_eq : g.name = f.name
  exported_eq : g.exported = f.exported
  tag_eq : g.tag = f.tag
  value : T g.value f.value

/-- The shape has the form, and its members the types given there. -/
def TypeForm.Fits : TypeForm → Shape Value → Prop
  | scalar kind, .scalar kind' => kind' = kind
  | scalar kind, .nil => kind = .nil
  | list fixed element, .list fixed' elements zero =>
      fixed' = fixed ∧ (∀ v ∈ elements, T v element) ∧ T zero element
  | optional target, .pointer content zero => (∀ v ∈ content, T v target) ∧ T zero target
  | record fields, .record fields' => List.Forall₂ (Field.Fits T) fields fields'
  | _, _ => False

end Fits

/-- The values related to a key show a level of the type there. -/
def IsTyping (types : Types) (table : TypeTable) (T : Value → String → Prop) : Prop :=
  ∀ v key, T v key → ∃ l d, v.layer? types = some l ∧ table.find? key = some d
    ∧ l.typeName = d.name ∧ d.form.Fits T l.shape

/-- The value has the type under the key. -/
def Value.HasType (types : Types) (table : TypeTable) (v : Value) (key : String) : Prop :=
  ∃ T, IsTyping types table T ∧ T v key

section Typing

variable {types : Types} {table : TypeTable} {T T' : Value → String → Prop}

theorem TypeForm.Fits.mono (hT : ∀ v key, T v key → T' v key) {form : TypeForm}
    {shape : Shape Value} (h : form.Fits T shape) : form.Fits T' shape := by
  cases form <;> cases shape <;> try exact h
  case list.list =>
    obtain ⟨hfixed, helements, hzero⟩ := h
    exact ⟨hfixed, fun v hv => hT v _ (helements v hv), hT _ _ hzero⟩
  case optional.pointer =>
    obtain ⟨hcontent, hzero⟩ := h
    exact ⟨fun v hv => hT v _ (hcontent v hv), hT _ _ hzero⟩
  case record.record =>
    refine List.Forall₂.imp (fun f g hfits => ?_) h
    exact ⟨hfits.name_eq, hfits.exported_eq, hfits.tag_eq, hT _ _ hfits.value⟩

/-- Having a type is itself a typing. -/
theorem isTyping_hasType : IsTyping types table (Value.HasType types table) := by
  rintro v key ⟨T, hT, hv⟩
  obtain ⟨l, d, hl, hd, hname, hfits⟩ := hT v key hv
  exact ⟨l, d, hl, hd, hname, hfits.mono fun w k hw => ⟨T, hT, hw⟩⟩

theorem kind_of_fits {form : TypeForm} {shape : Shape Value} (h : form.Fits T shape) :
    shape.kind = form.kind := by
  cases form <;> cases shape <;> try exact h.elim
  case scalar.scalar => exact h
  case scalar.nil =>
    obtain rfl : _ = Kind.nil := h
    rfl
  case list.list fixed _ fixed' _ _ =>
    obtain ⟨rfl, -⟩ := h
    cases fixed' <;> rfl
  case optional.pointer => rfl
  case record.record => rfl

theorem fieldAttributes_of_fits {f : Field String} {g : Field Value} (h : f.Fits T g) :
    Schema.fieldAttributes g = Schema.fieldAttributes f := by
  rw [Schema.fieldAttributes, Schema.fieldAttributes, h.name_eq, h.tag_eq]

/-- The exported members fit. -/
theorem forall₂_exported {fields : List (Field String)} {fields' : List (Field Value)}
    (h : List.Forall₂ (Field.Fits T) fields fields') :
    List.Forall₂ (Field.Fits T) (fields.filter (·.exported)) (fields'.filter (·.exported)) := by
  induction h with
  | nil => exact .nil
  | @cons f g fs gs hfits _ ih =>
      by_cases hf : f.exported = true
      · rw [List.filter_cons_of_pos hf, List.filter_cons_of_pos (hfits.exported_eq.trans hf)]
        exact .cons hfits ih
      · rw [List.filter_cons_of_neg hf,
          List.filter_cons_of_neg fun hg => hf (hfits.exported_eq.symm.trans hg)]
        exact ih

theorem isEmpty_of_forall₂ {α β : Type} {R : α → β → Prop} {xs : List α} {ys : List β}
    (h : List.Forall₂ R xs ys) : ys.isEmpty = xs.isEmpty := by
  cases h <;> rfl

end Typing

/-! ## What a level shows -/

namespace Attributes

theorem face_head_enters (a : Attributes) (kind : Kind) (name : Option String) :
    (a.head kind (.enters name)).face =
      ⟨a.name, (Generic.ofKind kind).slug, a.nullable, a.defect⟩ := by
  cases name <;> rfl

theorem face_settleScalar (a : Attributes) (kind : Kind) :
    (a.settleScalar kind).face = a.face := by
  unfold settleScalar
  split <;> rfl

theorem typeLabel_mixedKinds (a : Attributes) (kinds : Dictionary Nat) :
    (Schema.mixedKinds kinds a).typeLabel = a.typeLabel := rfl

end Attributes

/-! ## The content of a level of a type -/

section Content

variable {types : Types} {table : TypeTable} {T : Value → String → Prop} {a : Attributes}
  {form : TypeForm} {shape : Shape Value}

/-- What the content of a level of the form can be, on a node without a defect. -/
inductive TypeForm.Gives (T : Value → String → Prop) (a : Attributes) : TypeForm → Content → Prop
    where
  | scalar (kind : Kind) : Gives T a (.scalar kind) (.leaf (a.settleScalar kind))
  | failed {fields : List (Field String)} (h : fields.filter (·.exported) = []) :
      Gives T a (.record fields) (.leaf { a with defect := (TypeForm.record fields).defect? })
  | same {target : String} {b : Attributes} {v : Value}
      (hface : b.face = { a.face with nullable := true }) (hkeeps : a.KeepsType b)
      (hv : T v target) : Gives T a (.optional target) (.same b v)
  | each {form : TypeForm} {b : Attributes} {members : List (Attributes × Value)}
      (hform : form.isCompound = true) (hdefect : form.defect? = none) (hface : b.face = a.face)
      (hkeeps : a.KeepsType b)
      (hmembers : List.Forall₂ (fun m m' => m'.1 = m.1 ∧ T m'.2 m.2) form.members members) :
      Gives T a form (.each b members)
  | probed {fixed : Bool} {element : String} {b : Attributes} {elements : List Value}
      (hface : b.face = a.face) (hkeeps : a.KeepsType b) (hne : elements ≠ [])
      (helements : ∀ v ∈ elements, T v element) :
      Gives T a (.list fixed element) (.probed b elements)

theorem gives_content (ha : a.defect = none) (h : form.Fits T shape) :
    form.Gives T a (shape.content a) := by
  have hd : ¬ a.defect.isSome = true := by rw [ha]; exact Bool.false_ne_true
  cases form <;> cases shape <;> try exact h.elim
  case scalar.scalar kind kind' =>
    obtain rfl : kind' = kind := h
    exact .scalar kind'
  case scalar.nil kind =>
    obtain rfl : kind = .nil := h
    exact .scalar .nil
  case list.list fixed element fixed' elements zero =>
    obtain ⟨rfl, helements, hzero⟩ := h
    have hkeeps := Attributes.keepsType_modifyOptions a
      (·.set "len" (toString elements.length))
    dsimp only [Shape.content]
    rw [Attributes.defect_modifyOptions, if_neg hd]
    split
    · exact .each rfl rfl rfl hkeeps (.cons ⟨rfl, hzero⟩ .nil)
    · rename_i hempty
      exact .probed rfl hkeeps (fun hnil => hempty (by rw [hnil]; rfl)) helements
  case optional.pointer target content zero =>
    obtain ⟨hcontent, hzero⟩ := h
    have hkeeps := Attributes.keepsType_modifyOptions a (·.setBool "is_nil" content.isNone)
    dsimp only [Shape.content]
    rw [Attributes.defect_modifyOptions, if_neg hd]
    refine .same rfl (hkeeps.trans (Attributes.keepsType_nullable _)) ?_
    cases content with
    | none => exact hzero
    | some v => exact hcontent v rfl
  case record.record fields fields' =>
    have hexported := forall₂_exported h
    have hempty := isEmpty_of_forall₂ h
    have hnone := isEmpty_of_forall₂ hexported
    dsimp only [Shape.content]
    rw [if_neg hd, hempty, hnone]
    split
    · rename_i hf
      have hgives : (TypeForm.record fields).Gives T a
          (.leaf { a with defect := (TypeForm.record fields).defect? }) :=
        .failed (by rw [List.isEmpty_iff.mp hf]; rfl)
      rw [TypeForm.defect?, if_pos hf] at hgives
      exact hgives
    · rename_i hf
      split
      · rename_i he
        have hgives : (TypeForm.record fields).Gives T a
            (.leaf { a with defect := (TypeForm.record fields).defect? }) :=
          .failed (List.isEmpty_iff.mp he)
        rw [TypeForm.defect?, if_neg hf, if_pos he] at hgives
        exact hgives
      · rename_i he
        refine .each rfl ?_ rfl (.refl a) ?_
        · rw [TypeForm.defect?, if_neg hf, if_neg he]
        · rw [TypeForm.members, List.forall₂_map_left_iff, List.forall₂_map_right_iff]
          exact hexported.imp fun f g hfg => ⟨fieldAttributes_of_fits hfg, hfg.value⟩

end Content

/-! ## Typed positions -/

/-- The ruling on the levels of a type. -/
def TypeDesc.ruling (d : TypeDesc) (top : Bool) (above : Finset String) : Ruling :=
  Layer.ruling ⟨d.name, .scalar d.form.kind⟩ top above

/-- The value at the position has the type, its node is as new but for a
name and for being nullable, and the names above are those of types with
members. -/
structure Site.Typed (types : Types) (table : TypeTable) (p : Site) (d : TypeDesc) : Prop where
  hasType : ∃ key, table.find? key = some d ∧ p.value.HasType types table key
  typeRef_eq : p.attrs.native.typeRef = ""
  defect_eq : p.attrs.defect = none
  above : ∀ n ∈ p.above, ∃ key d, table.find? key = some d ∧ d.declares? = some n
    ∧ d.form.isCompound = true

section Typed

variable {types : Types} {table : TypeTable} {p q : Site} {d : TypeDesc} {depth : Nat}

theorem ruling_congr {l l' : Layer} (hname : l.typeName = l'.typeName)
    (hkind : l.shape.kind = l'.shape.kind) (top : Bool) (above : Finset String) :
    l.ruling top above = l'.ruling top above := by
  have hunsupported : l.isUnsupported = l'.isUnsupported := by
    rw [Layer.isUnsupported, Layer.isUnsupported, hkind]
  have hmisplaced : l.isMisplaced top = l'.isMisplaced top := by
    rw [Layer.isMisplaced, Layer.isMisplaced, Layer.isWrapper, Layer.isWrapper, hkind]
  have hdeclares : l.declares? = l'.declares? := by
    rw [Layer.declares?, Layer.declares?, hname, hkind]
  rw [Layer.ruling, Layer.ruling, hunsupported, hmisplaced, hdeclares]

theorem TypeDesc.declares?_of_enters {top : Bool} {above : Finset String} {name : Option String}
    (h : d.ruling top above = .enters name) : d.declares? = name ∧ ∀ n, name = some n → n ∉ above :=
  TypeOutline.declares?_of_enters h

theorem Site.Typed.exists_layer (h : p.Typed types table d) :
    ∃ l, p.value.layer? types = some l ∧ l.shape.kind = d.form.kind
      ∧ l.ruling p.top p.above = d.ruling p.top p.above
      ∧ d.form.Fits (Value.HasType types table) l.shape := by
  obtain ⟨key, hd, hv⟩ := h.hasType
  obtain ⟨l, d', hl, hd', hname, hfits⟩ := isTyping_hasType p.value key hv
  obtain rfl := Option.some.inj (hd.symm.trans hd')
  have hkind := kind_of_fits hfits
  exact ⟨l, hl, hkind, ruling_congr hname hkind p.top p.above, hfits⟩

/-- A value of some type, on a node as new, below a typed position. -/
theorem exists_typed {v : Value} {key : String} (hv : v.HasType types table key)
    (ha : q.attrs.native.typeRef = "") (hd : q.attrs.defect = none) (hvalue : q.value = v)
    (habove : ∀ n ∈ q.above, ∃ key d, table.find? key = some d ∧ d.declares? = some n
      ∧ d.form.isCompound = true) :
    ∃ d, table.find? key = some d ∧ q.Typed types table d := by
  obtain ⟨-, d, -, hkey, -, -⟩ := isTyping_hasType v key hv
  exact ⟨d, hkey, ⟨key, hkey, hvalue ▸ hv⟩, ha, hd, habove⟩

/-- All that one level of a typed position can do. -/
theorem typed_succ_cases {o : Outline} (hp : p.Typed types table d)
    (h : outline types (depth + 1) p = some o) :
    (∃ r, d.ruling p.top p.above = r ∧ (∀ name, r ≠ .enters name)
        ∧ o = .leaf (p.attrs.head d.form.kind r))
      ∨ ∃ l c content, d.ruling p.top p.above = .enters d.declares?
        ∧ d.form.Gives (Value.HasType types table)
          (p.attrs.head d.form.kind (.enters d.declares?)) c
        ∧ c.outline (outline types depth) p.top (declaredBelow p.above d.declares?) = some content
        ∧ o = content.finish p l := by
  obtain ⟨l, hl, hkind, hruling, hfits⟩ := hp.exists_layer
  obtain ⟨l', hl', ⟨hr, ho⟩ | ⟨name, content, hr, hcontent, ho⟩⟩ := outline_succ_cases h
  · obtain rfl := Option.some.inj (hl.symm.trans hl')
    rw [hruling] at hr ho
    rw [hkind] at ho
    exact .inl ⟨_, rfl, hr, ho⟩
  · obtain rfl := Option.some.inj (hl.symm.trans hl')
    rw [hruling] at hr
    obtain ⟨rfl, -⟩ := d.declares?_of_enters hr
    rw [hkind] at hcontent
    refine .inr ⟨l, _, content, hr, gives_content ?_ hfits, hcontent, ho⟩
    rw [defect_head_enters]
    exact hp.defect_eq

/-- An optional is never refused: its kind is supported at any place, and it declares nothing. -/
theorem ruling_optional (htable : table.WellFormed) (hp : p.Typed types table d) {target : String}
    (hform : d.form = .optional target) : d.ruling p.top p.above = .enters none := by
  obtain ⟨key, hd, -⟩ := hp.hasType
  have hname := htable.optional key d target hd hform
  have hlayer : Layer.declares? ⟨d.name, .scalar d.form.kind⟩ = none := hname
  rw [TypeDesc.ruling, Layer.ruling, hlayer, hform]
  rw [Layer.isUnsupported, Layer.isMisplaced, Layer.isWrapper]
  simp [Shape.kind, TypeForm.kind, Generic.ofKind, Generic.category]

/-- The position of the content of an optional. -/
structure Site.IsContent (types : Types) (table : TypeTable) (p q : Site) (target : String)
    (d : TypeDesc) : Prop where
  typed : q.Typed types table d
  find?_eq : table.find? target = some d
  name_eq : q.attrs.name = p.attrs.name
  nullable_eq : q.attrs.nullable = true
  top_eq : q.top = p.top
  above_eq : q.above = p.above

theorem exists_isContent (htable : table.WellFormed) (hp : p.Typed types table d) {target : String}
    (hform : d.form = .optional target) {b : Attributes} {v : Value}
    (hface : b.face =
      { (p.attrs.head d.form.kind (.enters d.declares?)).face with nullable := true })
    (hkeeps : (p.attrs.head d.form.kind (.enters d.declares?)).KeepsType b)
    (hv : v.HasType types table target) : d.declares? = none
      ∧ ∃ d', p.IsContent types table ⟨b, p.top, p.above, v⟩ target d' := by
  obtain ⟨key, hd, -⟩ := hp.hasType
  have hname := htable.optional key d target hd hform
  have htype := Attributes.typeRef_head p.attrs d.form.kind (.enters d.declares?)
  rw [hname] at htype hface hkeeps
  rw [Attributes.face_head_enters] at hface
  obtain ⟨d', hd', hq⟩ := exists_typed (q := ⟨b, p.top, p.above, v⟩) hv
    (hkeeps.typeRef_eq.trans (htype.trans hp.typeRef_eq))
    ((congrArg Face.defect hface).trans hp.defect_eq) rfl hp.above
  exact ⟨hname, d', hq, hd', congrArg Face.name hface, congrArg Face.nullable hface, rfl, rfl⟩

theorem exists_content_of_optional (htable : table.WellFormed) (hp : p.Typed types table d)
    {target : String} (hform : d.form = .optional target) {o : Outline}
    (h : outline types (depth + 1) p = some o) : ∃ q d' o', p.IsContent types table q target d'
      ∧ outline types depth q = some o' ∧ o.tree = o'.tree := by
  have hruling := ruling_optional htable hp hform
  rcases typed_succ_cases hp h with ⟨r, hr, hne, -⟩ | ⟨l, c, content, -, hgives, hcontent, rfl⟩
  · exact absurd (hr.symm.trans hruling) (hne none)
  · have hcontentOf := fun {b v} => exists_isContent (b := b) (v := v) htable hp hform
    generalize p.attrs.head d.form.kind (.enters d.declares?) = a at hgives hcontentOf
    rw [hform] at hgives
    cases hgives with
    | each h => cases h
    | same hface hkeeps hv =>
        obtain ⟨hname, d', hq⟩ := hcontentOf hface hkeeps hv
        rw [hname] at hcontent
        exact ⟨_, d', content, hq, hcontent, rfl⟩

/-! ## The members of a typed position -/

theorem fresh_of_mem_members {form : TypeForm} {m : Attributes × String} (hm : m ∈ form.members) :
    m.1.native.typeRef = "" ∧ m.1.defect = none := by
  cases form with
  | scalar kind => exact absurd hm List.not_mem_nil
  | optional target => exact absurd hm List.not_mem_nil
  | list fixed element =>
      rw [List.mem_singleton.mp hm]
      exact ⟨rfl, rfl⟩
  | record fields =>
      obtain ⟨f, -, rfl⟩ := List.mem_map.mp hm
      refine ⟨(blank_fieldAttributes f).typeRef_eq, ?_⟩
      have hfold : ∀ (es : List (String × Tag)) (a : Attributes), a.defect = none →
          (es.foldl (fun a e => a.modifyOverride e.1 (·.apply e.2)) a).defect = none := by
        intro es
        induction es with
        | nil => exact fun _ h => h
        | cons e es ih => exact fun a h => ih _ h
      exact hfold _ _ rfl

/-- The names above the members are those of types with members. -/
theorem Site.Typed.above_declared (hp : p.Typed types table d) (hform : d.form.isCompound = true) :
    ∀ n ∈ declaredBelow p.above d.declares?, ∃ key d, table.find? key = some d
      ∧ d.declares? = some n ∧ d.form.isCompound = true := by
  intro n hn
  obtain ⟨key, hkey, -⟩ := hp.hasType
  cases hname : d.declares? with
  | none =>
      rw [hname] at hn
      exact hp.above n hn
  | some m =>
      rw [hname] at hn
      rcases Finset.mem_insert.mp hn with rfl | hn
      · exact ⟨key, d, hkey, hname, hform⟩
      · exact hp.above n hn

theorem Site.Typed.exists_member (hp : p.Typed types table d) (hform : d.form.isCompound = true)
    {m : Attributes × String} (hm : m ∈ d.form.members) {v : Value}
    (hv : v.HasType types table m.2) : ∃ d', table.find? m.2 = some d'
      ∧ (⟨m.1, false, declaredBelow p.above d.declares?, v⟩ : Site).Typed types table d' := by
  obtain ⟨htype, hdefect⟩ := fresh_of_mem_members hm
  exact exists_typed hv htype hdefect rfl (hp.above_declared hform)

theorem exists_of_mem_right {α β : Type} {R : α → β → Prop} {xs : List α} {ys : List β} {y : β}
    (h : List.Forall₂ R xs ys) (hy : y ∈ ys) : ∃ x ∈ xs, R x y := by
  induction h with
  | nil => exact absurd hy List.not_mem_nil
  | @cons x z xs ys hxz _ ih =>
      rcases List.mem_cons.mp hy with rfl | hy
      · exact ⟨x, List.mem_cons_self, hxz⟩
      · obtain ⟨w, hw, hwy⟩ := ih hy
        exact ⟨w, List.mem_cons_of_mem x hw, hwy⟩

/-- Every position below a typed one is typed. -/
theorem exists_typed_of_mem_members (htable : table.WellFormed) (hp : p.Typed types table d)
    (hq : q ∈ p.members types) : ∃ d', q.Typed types table d' := by
  cases hl : p.value.layer? types with
  | none =>
      simp only [Site.members, hl] at hq
      exact absurd hq List.not_mem_nil
  | some l =>
      obtain ⟨l', hl', hkind, hruling, hfits⟩ := hp.exists_layer
      obtain rfl := Option.some.inj (hl.symm.trans hl')
      obtain ⟨name, hr⟩ := exists_enters_of_mem_members hl hq
      rw [members_of_enters hl hr, hkind] at hq
      rw [hruling] at hr
      obtain ⟨rfl, -⟩ := d.declares?_of_enters hr
      have hdefect := defect_head_enters p.attrs d.form.kind d.declares?
      have hgives := gives_content (hdefect.trans hp.defect_eq) hfits
      have hcontentOf := fun {target b v} (hform : d.form = .optional target) =>
        exists_isContent (b := b) (v := v) htable hp hform
      generalize l.shape.content (p.attrs.head d.form.kind (.enters d.declares?)) = c at hgives hq
      generalize p.attrs.head d.form.kind (.enters d.declares?) = a at hgives hcontentOf
      generalize hform : d.form = form at hgives
      cases hgives with
      | scalar => exact absurd hq List.not_mem_nil
      | failed => exact absurd hq List.not_mem_nil
      | same hface hkeeps hv =>
          obtain ⟨hname, d', hcontent⟩ := hcontentOf hform hface hkeeps hv
          rw [hname] at hq
          obtain rfl := List.mem_singleton.mp hq
          exact ⟨d', hcontent.typed⟩
      | each hcompound _ _ _ hmembers =>
          subst hform
          obtain ⟨m', hm', rfl⟩ := List.mem_map.mp hq
          obtain ⟨m, hm, heq, hv⟩ := exists_of_mem_right hmembers hm'
          rw [heq]
          exact (hp.exists_member hcompound hm hv).imp fun _ h => h.2
      | @probed fixed element _ _ _ _ _ helements =>
          obtain ⟨v, hv, rfl⟩ := List.mem_map.mp hq
          have hm : (({ name := "" }, element) : Attributes × String) ∈ d.form.members := by
            rw [hform]
            exact List.mem_singleton_self _
          have hcompound : d.form.isCompound = true := by rw [hform]; rfl
          exact (hp.exists_member hcompound hm (helements v hv)).imp fun _ h => h.2

end Typed

end TypeOutline
