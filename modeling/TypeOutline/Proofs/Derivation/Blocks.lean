import TypeOutline.Proofs.Derivation.WellFormed

/-!
# The blocks of other dialects

Every node has a block for the native dialect, which the derivation writes
on, and may have blocks for other dialects, which come from the tags of
the member that the node stands for (`block_fieldAttributes`). Nothing
else writes on those (`keepsBlocks_head`, `content_lasts`), until a
definition drops what they say about the place of its node. So what holds
of the blocks of all members that are met, of blocks that override
nothing, and of the blocks of definitions, holds of every node of a
schema (`lasts_of_below_tops`).
-/

namespace TypeOutline

open Relation

/-! ## Blocks -/

namespace Attributes

variable {a b c : Attributes}

/-- The block of a dialect; one that overrides nothing if there is none. -/
def block (a : Attributes) (dialect : String) : Override :=
  (a.override? dialect).getD (.fresh dialect)

theorem block_modifyOverride (a : Attributes) (dialect : String) (f : Override → Override)
    (k : String) : (a.modifyOverride dialect f).block k =
      if k = dialect then f (a.block k) else a.block k := by
  rw [block, override?_modifyOverride]
  split
  · rename_i h
    rw [h, Option.getD_some, block]
  · rfl

theorem block_definition (a : Attributes) (dialect : String) : a.definition.block dialect =
    { a.block dialect with name := "", typeRef := "", inclusion := .included } := by
  rw [block, block, override?, override?, definition, Dictionary.find?_mapValues]
  cases a.overrides.find? dialect <;> rfl

/-! ## What a dialect shows -/

theorem nameIn_eq (a : Attributes) (dialect : String) :
    a.nameIn dialect = orElseText (a.block dialect).name a.name := by
  rw [nameIn, block]
  cases a.override? dialect <;> rfl

theorem view_name (a : Attributes) (dialect : String) :
    (a.view dialect).name = orElseText (a.block dialect).name a.name := by
  rw [view, block]
  cases a.override? dialect <;> rfl

theorem view_type (a : Attributes) {dialect : String} (h : dialect ≠ nativeDialect) :
    (a.view dialect).type = orElseText (a.block dialect).type a.generic.slug := by
  rw [view, block]
  cases a.override? dialect with
  | none => rfl
  | some b => exact if_neg h

theorem view_typeRef (a : Attributes) (dialect : String) :
    (a.view dialect).typeRef = orElseText (a.block dialect).typeRef a.native.typeRef := by
  rw [view, block]
  cases a.override? dialect <;> rfl

theorem isExcluded_eq (a : Attributes) (dialect : String) :
    a.isExcluded dialect = ((a.block dialect).inclusion == .excluded) := by
  rw [isExcluded, view, block]
  cases a.override? dialect <;> rfl

/-! ## Writing on the native block alone -/

/-- The blocks of the other dialects are the same. -/
def KeepsBlocks (a b : Attributes) : Prop :=
  ∀ dialect, dialect ≠ nativeDialect → b.block dialect = a.block dialect

theorem KeepsBlocks.trans (h : a.KeepsBlocks b) (h' : b.KeepsBlocks c) : a.KeepsBlocks c :=
  fun dialect hd => (h' dialect hd).trans (h dialect hd)

theorem keepsBlocks_of_overrides (h : b.overrides = a.overrides) : a.KeepsBlocks b := by
  intro dialect _
  rw [block, block, override?, override?, h]

theorem keepsBlocks_modifyNative (a : Attributes) (f : Override → Override) :
    a.KeepsBlocks (a.modifyNative f) := by
  intro dialect hd
  rw [modifyNative, block_modifyOverride, if_neg hd]

theorem keepsBlocks_modifyOptions (a : Attributes) (f : OptionSet → OptionSet) :
    a.KeepsBlocks (a.modifyOptions f) :=
  keepsBlocks_modifyNative a _

theorem keepsBlocks_classify (a : Attributes) (kind : Kind) : a.KeepsBlocks (a.classify kind) :=
  (keepsBlocks_of_overrides rfl).trans (keepsBlocks_modifyNative _ _)

theorem keepsBlocks_typed (a : Attributes) (kind : Kind) : a.KeepsBlocks (a.typed kind) :=
  (keepsBlocks_classify a kind).trans (keepsBlocks_modifyNative _ _)

theorem keepsBlocks_declare (a : Attributes) (name : String) : a.KeepsBlocks (a.declare name) :=
  (keepsBlocks_of_overrides rfl).trans (keepsBlocks_modifyNative _ _)

theorem keepsBlocks_fail (a : Attributes) (d : Defect) : a.KeepsBlocks (a.fail d) :=
  keepsBlocks_of_overrides rfl

theorem keepsBlocks_head (a : Attributes) (kind : Kind) (ruling : Ruling) :
    a.KeepsBlocks (a.head kind ruling) := by
  have htyped := keepsBlocks_typed a kind
  cases ruling with
  | unsupported => exact (keepsBlocks_classify a kind).trans (keepsBlocks_of_overrides rfl)
  | misplaced => exact (keepsBlocks_classify a kind).trans (keepsBlocks_fail _ _)
  | cycle name =>
      exact (htyped.trans (keepsBlocks_declare _ name)).trans (keepsBlocks_fail _ _)
  | enters name =>
      cases name with
      | none => exact htyped
      | some name => exact htyped.trans (keepsBlocks_declare _ name)

end Attributes

/-! ## The blocks of a member -/

theorem block_new (name dialect : String) :
    ({ name := name } : Attributes).block dialect = .fresh dialect := by
  rw [Attributes.block, Attributes.override?, Dictionary.find?_single]
  split
  · rename_i hd
    rw [hd, Option.getD_some]
  · rfl

theorem block_foldl_modifyOverride (dialect : String) : ∀ {es : List (String × Tag)}
    (a : Attributes), (es.map (·.1)).Nodup →
      (es.foldl (fun a e => a.modifyOverride e.1 (·.apply e.2)) a).block dialect =
        (es.lookup dialect).elim (a.block dialect) (a.block dialect).apply
  | [], _, _ => rfl
  | (k, t) :: es, a, h => by
      obtain ⟨hk, hes⟩ := List.nodup_cons.mp h
      rw [List.foldl_cons, block_foldl_modifyOverride dialect _ hes, List.lookup_cons]
      by_cases hd : dialect = k
      · subst hd
        have hnone : es.lookup dialect = none := by
          rw [List.lookup_eq_none_iff]
          exact fun e he => bne_iff_ne.mpr fun heq => hk (heq ▸ List.mem_map_of_mem (f := (·.1)) he)
        rw [hnone, beq_self_eq_true, Option.elim_none, Attributes.block_modifyOverride, if_pos rfl]
        rfl
      · rw [beq_eq_false_iff_ne.mpr hd, Attributes.block_modifyOverride, if_neg hd]

/-- What the tags of a member say in a dialect is all that its block says. -/
theorem block_fieldAttributes {α : Type} (f : Field α) (dialect : String) :
    (Schema.fieldAttributes f).block dialect =
      ((Tag.parseAll f.tag).find? dialect).elim (.fresh dialect)
        (Override.fresh dialect).apply := by
  rw [Schema.fieldAttributes, block_foldl_modifyOverride dialect _ (Tag.parseAll f.tag).nodup,
    block_new]
  rfl

/-! ## What lasts -/

/-- A property of nodes that depends on the blocks of the other dialects,
and holds of new nodes and of the definitions made of nodes that have it. -/
structure Lasts (F : Attributes → Prop) : Prop where
  keeps : ∀ {a b : Attributes}, a.KeepsBlocks b → F a → F b
  new : ∀ name, F { name := name }
  definition : ∀ {a : Attributes}, F a → F a.definition

/-- All members of a record have the property from their tags. -/
def Layer.TagsGive (F : Attributes → Prop) (l : Layer) : Prop :=
  ∀ fields, l.shape = .record fields → ∀ f ∈ fields, F (Schema.fieldAttributes f)

section Lasting

variable {F : Attributes → Prop}

theorem lasts_memberAttributes (hF : Lasts F) (m : Schema.Member) : F m.attributes := by
  have hname : F (if m.name = m.key then { name := m.name }
      else ({ name := m.name } : Attributes).modifyNative fun b => { b with name := m.key }) := by
    split
    · exact hF.new m.name
    · exact hF.keeps (Attributes.keepsBlocks_modifyNative _ _) (hF.new m.name)
  unfold Schema.Member.attributes
  dsimp only
  split
  · exact hF.keeps ((Attributes.keepsBlocks_fail _ _).trans
      (Attributes.keepsBlocks_modifyNative _ _)) hname
  · exact hname

/-- The node of the content has the property, and the nodes of its members start with it. -/
def Content.Lasts (F : Attributes → Prop) : Content → Prop
  | .leaf a => F a
  | .same a _ => F a
  | .each a members => F a ∧ ∀ m ∈ members, F m.1
  | .probed a _ => F a ∧ ∀ kinds, F (Schema.mixedKinds kinds a)

theorem content_lasts (hF : Lasts F) {a : Attributes} {l : Layer} (ha : F a)
    (hl : l.TagsGive F) : (l.shape.content a).Lasts F := by
  have hwrites : ∀ {a : Attributes} (f : Override → Override), F a → F (a.modifyNative f) :=
    fun f => hF.keeps (Attributes.keepsBlocks_modifyNative _ f)
  have hfails : ∀ {a : Attributes} (d : Defect), F a → F (a.fail d) :=
    fun d => hF.keeps (Attributes.keepsBlocks_fail _ d)
  unfold Layer.TagsGive at hl
  cases hshape : l.shape with
  | scalar kind =>
      rw [Shape.content, Attributes.settleScalar]
      split
      · exact hwrites _ (hF.keeps (a := a) (Attributes.keepsBlocks_of_overrides rfl) ha)
      · exact ha
  | list fixed elements zero =>
      have hlen := hF.keeps (Attributes.keepsBlocks_modifyOptions a
        (·.set "len" (toString elements.length))) ha
      dsimp only [Shape.content]
      split
      · exact hlen
      · split
        · exact ⟨hlen, fun m hm => List.mem_singleton.mp hm ▸ hF.new ""⟩
        · exact ⟨hlen, fun kinds => hwrites _ (hfails _ hlen)⟩
  | record fields =>
      dsimp only [Shape.content]
      split
      · exact ha
      · split
        · exact hfails _ ha
        · split
          · exact hfails _ ha
          · refine ⟨ha, fun m hm => ?_⟩
            obtain ⟨f, hf, rfl⟩ := List.mem_map.mp hm
            exact hl fields hshape f (List.mem_filter.mp hf).1
  | map key keyType entries =>
      rw [Shape.content]
      split
      · exact ha
      · split
        · exact hwrites _ (hfails _ ha)
        · split
          · exact hfails _ ha
          · refine ⟨ha, fun m hm => ?_⟩
            obtain ⟨m', -, rfl⟩ := List.mem_map.mp hm
            exact lasts_memberAttributes hF m'
  | slot target =>
      cases target with
      | none => exact hF.keeps (a := a) (Attributes.keepsBlocks_of_overrides rfl) ha
      | some v => exact hF.keeps (a := a) (Attributes.keepsBlocks_of_overrides rfl) ha
  | pointer target zero =>
      have hnil := hF.keeps (Attributes.keepsBlocks_modifyOptions a
        (·.setBool "is_nil" target.isNone)) ha
      dsimp only [Shape.content]
      split
      · exact hnil
      · exact hF.keeps (a := a.modifyOptions _) (Attributes.keepsBlocks_of_overrides rfl) hnil
  | nil => exact ha

variable {types : Types} {v : Value}

theorem lasts_of_content {derive : Site → Option Outline} (hF : Lasts F) {a : Attributes}
    {l : Layer} {top : Bool} {above : Finset String} {o : Outline} (ha : F a)
    (hl : l.TagsGive F) (ho : (l.shape.content a).outline derive top above = some o)
    (hsites : ∀ q ∈ (l.shape.content a).sites top above, F q.attrs →
      ∀ o', derive q = some o' → ∀ b, o'.Shows b → F b) : ∀ b, o.Shows b → F b := by
  intro b hb
  have hlasts := content_lasts hF ha hl
  cases hc : l.shape.content a with
  | leaf c =>
      rw [hc] at ho hlasts
      obtain rfl := Option.some.inj ho
      exact Outline.shows_leaf.mp hb ▸ hlasts
  | same c v =>
      rw [hc] at ho hlasts hsites
      exact hsites _ List.mem_cons_self hlasts o ho b hb
  | each c members =>
      rw [hc] at ho hlasts hsites
      obtain ⟨os, hos, ho⟩ := Option.bind_eq_some_iff.mp ho
      obtain rfl := Option.some.inj ho
      have htrees : ∀ t ∈ (Outline.branch c os).tree.children, ∃ o' ∈ os, o'.tree = t :=
        fun t ht => List.mem_map.mp ht
      rcases Outline.shows_each htrees rfl hb with rfl | ⟨o', ho', hb⟩
      · exact hlasts.1
      · obtain ⟨m, hm, hmo⟩ := exists_of_mem_mapM hos o' ho'
        exact hsites _ (List.mem_map_of_mem hm) (hlasts.2 m hm) o' hmo b hb
  | probed c elements =>
      rw [hc] at ho hlasts hsites
      obtain ⟨⟨os, kinds⟩, hos, ho⟩ := Option.bind_eq_some_iff.mp ho
      obtain rfl := Option.some.inj ho
      have hmember : ∀ o' ∈ os, ∀ b, o'.Shows b → F b := by
        intro o' ho' b hb
        obtain ⟨v, hv, hvo⟩ := exists_of_mem_gather hos o' ho'
        exact hsites _ (List.mem_map_of_mem hv) (hF.new "") o' hvo b hb
      have hlabel : F (Outline.list c os kinds).tree.label := by
        unfold Outline.list
        dsimp only
        split
        · exact hlasts.2 kinds
        · exact hlasts.1
      have htrees : ∀ t ∈ (Outline.list c os kinds).tree.children, ∃ o' ∈ os, o'.tree = t := by
        unfold Outline.list
        dsimp only
        split
        · exact fun t ht => absurd ht List.not_mem_nil
        · exact fun t ht => List.mem_map.mp (List.mem_of_mem_take ht)
      rcases Outline.shows_each htrees rfl hb with rfl | ⟨o', ho', hb⟩
      · exact hlabel
      · exact hmember o' ho' b hb

/-- Every node of an outline has the property, if the node at its top has it before. -/
theorem lasts_of_outline (hF : Lasts F) (depth : Nat) : ∀ {p : Site} {o : Outline},
    outline types depth p = some o → F p.attrs → p.value.EveryLevel types (Layer.TagsGive F) →
      ∀ b, o.Shows b → F b := by
  induction depth with
  | zero => exact fun ho => nomatch ho
  | succ depth ih =>
      intro p o ho hp hv b hb
      obtain ⟨l, hl, ⟨hr, rfl⟩ | ⟨name, o, hr, hcontent, rfl⟩⟩ := outline_succ_cases ho
      · exact Outline.shows_leaf.mp hb ▸ hF.keeps (Attributes.keepsBlocks_head _ _ _) hp
      · refine lasts_of_content hF (hF.keeps (Attributes.keepsBlocks_head _ _ _) hp)
          (hv p.value .refl l hl) hcontent (fun q hq hqF o' ho' => ?_) b
          (Outline.shows_finish.mp hb)
        exact ih ho' hqF (hv.member hl (mem_sites hq).1)

/-- Every node of a derived schema below the tops has the property. -/
theorem lasts_of_below_tops {s : Schema} {o : Outline} {k : NodeId} (hF : Lasts F) (hs : s.Linked)
    (ho : s.Renders o) (houtlines : Outlines types (.start v) o)
    (hv : v.EveryLevel types (Layer.TagsGive F))
    (hk : TransGen s.Owns s.root k ∨ TransGen s.Owns s.typeRefs k) : F (s.attrs k) := by
  have hshown : ∀ a, o.Shows a → F a := by
    obtain ⟨depth, houtline⟩ := houtlines
    exact lasts_of_outline hF depth houtline (hF.new "") hv
  exact forall_below_tops hs ho houtlines hshown (fun _ => hF.definition)
    (fun a => hF.keeps (Attributes.keepsBlocks_of_overrides rfl)) hk

end Lasting

/-! ## Two properties that last -/

/-- The blocks of the other dialects name no type. -/
def Attributes.NamesNoType (a : Attributes) : Prop :=
  ∀ dialect, dialect ≠ nativeDialect → (a.block dialect).type = ""

/-- The block of a dialect overrides nothing. -/
def Attributes.IsSilentIn (dialect : String) (a : Attributes) : Prop :=
  a.block dialect = .fresh dialect

theorem lasts_namesNoType : Lasts Attributes.NamesNoType where
  keeps h ha dialect hd := by
    rw [h dialect hd]
    exact ha dialect hd
  new name dialect _ := by
    rw [block_new]
    rfl
  definition ha dialect hd := by
    rw [Attributes.block_definition]
    exact ha dialect hd

theorem lasts_isSilentIn {dialect : String} (hd : dialect ≠ nativeDialect) :
    Lasts (Attributes.IsSilentIn dialect) where
  keeps h ha := (h dialect hd).trans ha
  new name := block_new name dialect
  definition ha := by
    rw [Attributes.IsSilentIn, Attributes.block_definition, ha]
    rfl

/-- Tags name no types. -/
theorem namesNoType_fieldAttributes {α : Type} (f : Field α) :
    (Schema.fieldAttributes f).NamesNoType := by
  intro dialect _
  rw [block_fieldAttributes]
  cases (Tag.parseAll f.tag).find? dialect <;> rfl

end TypeOutline
