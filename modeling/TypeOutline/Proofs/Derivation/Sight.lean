import TypeOutline.Proofs.Derivation.Blocks
import TypeOutline.Proofs.Derivation.Definitions
import TypeOutline.Proofs.Derivation.Likeness

/-!
# What the output can see of a node

An output reads the blocks of some dialects. What it can see of a node then
is its `sight`: the generic attributes, the type and the reference of the
native block, and of the blocks it reads all but their options and
diagnostics. Nodes with one sight are `Alike`.

Every step of a derivation takes nodes alike to nodes alike
(`Alike.head`, `Alike.definition`, `cut_sight`, `record_sight`): none reads
more of a node than its sight. Tags can only reach the blocks
(`alike_fieldAttributes`), and of the native block neither type nor
reference.
-/

namespace TypeOutline

/-! ## Dictionaries of given keys -/

namespace Dictionary

variable {α : Type}

/-- The dictionary of some keys with what a function has for each. -/
def tabulate (keys : List String) (f : String → α) : Dictionary α :=
  .ofList (keys.map fun k => (k, f k))

theorem find?_insertAll_map (f : String → α) (k : String) : ∀ (keys : List String)
    (d : Dictionary α), (d.insertAll (keys.map fun k => (k, f k))).find? k =
      if k ∈ keys then some (f k) else d.find? k
  | [], d => (if_neg List.not_mem_nil).symm
  | key :: keys, d => by
      rw [List.map_cons]
      refine (find?_insertAll_map f k keys (d.insert key (f key))).trans ?_
      rw [find?_insert]
      by_cases h : k = key
      · subst h
        rw [if_pos rfl, if_pos List.mem_cons_self, ite_self]
      · simp only [List.mem_cons, h, if_false, false_or]

theorem find?_tabulate (keys : List String) (f : String → α) (k : String) :
    (tabulate keys f).find? k = if k ∈ keys then some (f k) else none :=
  find?_insertAll_map f k keys empty

theorem tabulate_eq_iff {keys : List String} {f g : String → α} :
    tabulate keys f = tabulate keys g ↔ ∀ k ∈ keys, f k = g k := by
  refine ⟨fun h k hk => ?_, fun h => congrArg ofList (List.map_congr_left fun k hk => ?_)⟩
  · have hfind := congrArg (·.find? k) h
    rw [find?_tabulate, find?_tabulate, if_pos hk, if_pos hk] at hfind
    exact Option.some.inj hfind
  · rw [h k hk]

end Dictionary

/-! ## What is seen of a node -/

/-- What a block says in the output: all but its options and its diagnostic. -/
def Override.said (b : Override) : Override := { b with options := {}, error := "" }

namespace Attributes

/-- What is seen of the block of a dialect: of the native one only its type and its reference. -/
def seen (a : Attributes) (dialect : String) : Override :=
  if dialect = nativeDialect then
    { dialect := nativeDialect, type := a.native.type, typeRef := a.native.typeRef }
  else (a.block dialect).said

/-- What can be seen of a node where the blocks of some dialects are read. -/
def sight (ds : List String) (a : Attributes) : Attributes :=
  { a with overrides := .tabulate (nativeDialect :: ds) a.seen }

/-- The same can be seen of the nodes. -/
structure Alike (ds : List String) (a b : Attributes) : Prop where
  name_eq : a.name = b.name
  nullable_eq : a.nullable = b.nullable
  generic_eq : a.generic = b.generic
  invalidKind_eq : a.invalidKind = b.invalidKind
  typeRef_eq : a.typeRef = b.typeRef
  defect_eq : a.defect = b.defect
  nativeType_eq : a.native.type = b.native.type
  nativeRef_eq : a.native.typeRef = b.native.typeRef
  said_eq : ∀ d ∈ ds, d ≠ nativeDialect → (a.block d).said = (b.block d).said

variable {ds : List String} {a b c : Attributes}

theorem alike_iff : a.Alike ds b ↔ a.sight ds = b.sight ds := by
  constructor
  · intro h
    have hseen : ∀ d ∈ nativeDialect :: ds, a.seen d = b.seen d := by
      intro d hd
      by_cases hne : d = nativeDialect
      · rw [seen, seen, if_pos hne, if_pos hne, h.nativeType_eq, h.nativeRef_eq]
      · rw [seen, seen, if_neg hne, if_neg hne,
          h.said_eq d ((List.mem_cons.mp hd).resolve_left hne) hne]
    rw [sight, sight, Dictionary.tabulate_eq_iff.mpr hseen, h.name_eq, h.nullable_eq,
      h.generic_eq, h.invalidKind_eq, h.typeRef_eq, h.defect_eq]
  · intro h
    have hseen := Dictionary.tabulate_eq_iff.mp (congrArg (·.overrides) h)
    have hnative := hseen nativeDialect List.mem_cons_self
    rw [seen, seen, if_pos rfl, if_pos rfl] at hnative
    refine ⟨congrArg (·.name) h, congrArg (·.nullable) h, congrArg (·.generic) h,
      congrArg (·.invalidKind) h, congrArg (·.typeRef) h, congrArg (·.defect) h,
      congrArg (·.type) hnative, congrArg (·.typeRef) hnative, fun d hd hne => ?_⟩
    have hsaid := hseen d (List.mem_cons_of_mem _ hd)
    rwa [seen, seen, if_neg hne, if_neg hne] at hsaid

theorem Alike.refl (ds : List String) (a : Attributes) : a.Alike ds a := alike_iff.mpr rfl

theorem block_sight (a : Attributes) {d : String} (hd : d ∈ nativeDialect :: ds) :
    (a.sight ds).block d = a.seen d := by
  rw [block, override?, sight, Dictionary.find?_tabulate, if_pos hd, Option.getD_some]

/-- The sight of a node is all that can be seen of it. -/
theorem sight_alike (ds : List String) (a : Attributes) : (a.sight ds).Alike ds a := by
  have hnative : (a.sight ds).native = a.seen nativeDialect := block_sight a List.mem_cons_self
  rw [seen, if_pos rfl] at hnative
  refine ⟨rfl, rfl, rfl, rfl, rfl, rfl, congrArg (·.type) hnative, congrArg (·.typeRef) hnative,
    fun d hd hne => ?_⟩
  rw [block_sight a (List.mem_cons_of_mem _ hd), seen, if_neg hne]
  rfl

theorem sight_sight (ds : List String) (a : Attributes) : (a.sight ds).sight ds = a.sight ds :=
  alike_iff.mp (sight_alike ds a)

namespace Alike

theorem isReference_eq (h : a.Alike ds b) : a.isReference = b.isReference :=
  congrArg (· != "") h.nativeRef_eq

theorem isCyclical_eq (h : a.Alike ds b) : a.isCyclical = b.isCyclical :=
  congrArg (· == some Defect.cyclicalReference) h.defect_eq

theorem isRoot_eq (h : a.Alike ds b) : a.isRoot = b.isRoot :=
  congrArg (· == .root) h.generic_eq

theorem typeLabel_eq (h : a.Alike ds b) : a.typeLabel = b.typeLabel := by
  unfold typeLabel
  rw [h.invalidKind_eq, h.generic_eq]

theorem category_eq (h : a.Alike ds b) : a.category = b.category :=
  congrArg Generic.category h.generic_eq

theorem defines?_eq (h : a.Alike ds b) : a.defines? = b.defines? := by
  unfold defines?
  rw [h.isReference_eq, h.isCyclical_eq, h.nativeRef_eq]

/-! ## Writing on nodes alike -/

theorem modifyNative (h : a.Alike ds b) {f g : Override → Override}
    (htype : (f a.native).type = (g b.native).type)
    (href : (f a.native).typeRef = (g b.native).typeRef) :
    (a.modifyNative f).Alike ds (b.modifyNative g) where
  name_eq := h.name_eq
  nullable_eq := h.nullable_eq
  generic_eq := h.generic_eq
  invalidKind_eq := h.invalidKind_eq
  typeRef_eq := h.typeRef_eq
  defect_eq := h.defect_eq
  nativeType_eq := by rw [native_modifyNative, native_modifyNative, htype]
  nativeRef_eq := by rw [native_modifyNative, native_modifyNative, href]
  said_eq d hd hne := by
    rw [keepsBlocks_modifyNative a f d hne, keepsBlocks_modifyNative b g d hne]
    exact h.said_eq d hd hne

theorem modifyOptions (h : a.Alike ds b) (f g : OptionSet → OptionSet) :
    (a.modifyOptions f).Alike ds (b.modifyOptions g) :=
  h.modifyNative h.nativeType_eq h.nativeRef_eq

theorem fail (h : a.Alike ds b) (d : Defect) : (a.fail d).Alike ds (b.fail d) :=
  { h with defect_eq := rfl }

theorem nullable (h : a.Alike ds b) :
    ({ a with nullable := true } : Attributes).Alike ds { b with nullable := true } :=
  { h with nullable_eq := rfl }

theorem classify (h : a.Alike ds b) (kind : Kind) : (a.classify kind).Alike ds (b.classify kind) :=
  modifyOptions (a := { a with generic := .ofKind kind, invalidKind := none })
    (b := { b with generic := .ofKind kind, invalidKind := none })
    { h with generic_eq := rfl, invalidKind_eq := rfl } _ _

theorem typed (h : a.Alike ds b) (kind : Kind) : (a.typed kind).Alike ds (b.typed kind) :=
  (h.classify kind).modifyNative rfl (h.classify kind).nativeRef_eq

theorem declare (h : a.Alike ds b) (name : String) : (a.declare name).Alike ds (b.declare name) :=
  modifyNative (a := { a with typeRef := name }) (b := { b with typeRef := name })
    { h with typeRef_eq := rfl } h.nativeType_eq rfl

/-- The head of a level adds to what can be seen, and nothing else. -/
theorem head (h : a.Alike ds b) (kind : Kind) (ruling : Ruling) :
    (a.head kind ruling).Alike ds (b.head kind ruling) := by
  cases ruling with
  | unsupported => exact { (h.classify kind).fail _ with invalidKind_eq := rfl }
  | misplaced => exact (h.classify kind).fail _
  | cycle name => exact ((h.typed kind).declare name).fail _
  | enters name =>
      cases name with
      | none => exact h.typed kind
      | some name => exact (h.typed kind).declare name

theorem settleScalar (h : a.Alike ds b) (kind : Kind) :
    (a.settleScalar kind).Alike ds (b.settleScalar kind) := by
  rw [Attributes.settleScalar, Attributes.settleScalar]
  split
  · exact modifyNative (a := { a with typeRef := "" }) (b := { b with typeRef := "" })
      { h with typeRef_eq := rfl } h.nativeType_eq rfl
  · exact h

theorem mixedKinds (h : a.Alike ds b) (kinds : Dictionary Nat) :
    (Schema.mixedKinds kinds a).Alike ds (Schema.mixedKinds kinds b) :=
  (h.fail _).modifyNative h.nativeType_eq h.nativeRef_eq

theorem badKeys (h : a.Alike ds b) (keyType : String) :
    (Schema.badKeys keyType a).Alike ds (Schema.badKeys keyType b) :=
  (h.fail _).modifyNative h.nativeType_eq h.nativeRef_eq

theorem definition (h : a.Alike ds b) : a.definition.Alike ds b.definition where
  name_eq := h.nativeRef_eq
  nullable_eq := rfl
  generic_eq := h.generic_eq
  invalidKind_eq := h.invalidKind_eq
  typeRef_eq := rfl
  defect_eq := h.defect_eq
  nativeType_eq := by
    have ha := congrArg Override.type (block_definition a nativeDialect)
    have hb := congrArg Override.type (block_definition b nativeDialect)
    exact ha.trans (h.nativeType_eq.trans hb.symm)
  nativeRef_eq := by
    have ha := congrArg Override.typeRef (block_definition a nativeDialect)
    have hb := congrArg Override.typeRef (block_definition b nativeDialect)
    exact ha.trans hb.symm
  said_eq d hd hne := by
    have hsaid := congrArg (fun b : Override =>
      { b with name := "", typeRef := "", inclusion := .included }) (h.said_eq d hd hne)
    rw [block_definition, block_definition]
    exact hsaid

end Alike

end Attributes

/-! ## Members alike -/

/-- Whether a tag text leaves the member out of a dialect, and its other name there. A dialect that
is not mentioned shows the member under its own name. -/
def Tag.verdict (raw dialect : String) : Bool × String :=
  ((Tag.parseAll raw).find? dialect).elim (false, "") fun t => (t.ignore, t.name)

/-- The tag texts differ at most in options, and in what they say of other dialects. -/
def Tag.AgreeIn (ds : List String) (raw raw' : String) : Prop :=
  ∀ d ∈ ds, Tag.verdict raw d = Tag.verdict raw' d

/-- Tags write on the blocks alone. -/
theorem foldl_modifyOverride_eq : ∀ (es : List (String × Tag)) (a : Attributes), ∃ overrides,
    es.foldl (fun a e => a.modifyOverride e.1 (·.apply e.2)) a = { a with overrides }
  | [], a => ⟨a.overrides, rfl⟩
  | e :: es, a => foldl_modifyOverride_eq es (a.modifyOverride e.1 (·.apply e.2))

theorem said_block_fieldAttributes {α : Type} (f : Field α) (dialect : String) :
    ((Schema.fieldAttributes f).block dialect).said =
      { Override.fresh dialect with
        inclusion := if (Tag.verdict f.tag dialect).1 then .excluded else .included
        name := (Tag.verdict f.tag dialect).2 } := by
  rw [block_fieldAttributes, Tag.verdict]
  cases (Tag.parseAll f.tag).find? dialect with
  | none => rfl
  | some t =>
      have hname : (if t.name = "" then "" else t.name) = t.name := by
        split
        · rename_i h
          exact h.symm
        · rfl
      rw [Option.elim_some, Option.elim_some, Override.apply, Override.said]
      simp only [Override.fresh, hname]

/-- Tags that agree in the dialects that are read make nodes alike. -/
theorem alike_fieldAttributes {α : Type} {ds : List String} {f g : Field α}
    (hname : f.name = g.name) (htag : Tag.AgreeIn ds f.tag g.tag) :
    (Schema.fieldAttributes f).Alike ds (Schema.fieldAttributes g) := by
  have hplain : ∀ f : Field α, (Schema.fieldAttributes f).native.type = ""
      ∧ (Schema.fieldAttributes f).native.typeRef = "" := by
    intro f
    have hsaid := said_block_fieldAttributes f nativeDialect
    exact ⟨congrArg Override.type hsaid, congrArg Override.typeRef hsaid⟩
  obtain ⟨overrides, hf⟩ := foldl_modifyOverride_eq (Tag.parseAll f.tag).entries { name := f.name }
  obtain ⟨overrides', hg⟩ := foldl_modifyOverride_eq (Tag.parseAll g.tag).entries { name := g.name }
  have hf : Schema.fieldAttributes f = { name := f.name, overrides } := hf
  have hg : Schema.fieldAttributes g = { name := g.name, overrides := overrides' } := hg
  refine ⟨?_, ?_, ?_, ?_, ?_, ?_, ?_, ?_, fun d hd _ => ?_⟩
  · rw [hf, hg]
    exact hname
  · rw [hf, hg]
  · rw [hf, hg]
  · rw [hf, hg]
  · rw [hf, hg]
  · rw [hf, hg]
  · rw [(hplain f).1, (hplain g).1]
  · rw [(hplain f).2, (hplain g).2]
  · rw [said_block_fieldAttributes, said_block_fieldAttributes, htag d hd]

/-! ## Trees alike -/

namespace Rose

variable {ds : List String}

theorem alike_label {t u : Rose Attributes}
    (h : t.map (Attributes.sight ds) = u.map (Attributes.sight ds)) : t.label.Alike ds u.label := by
  have hlabel := congrArg label h
  rw [label_map, label_map] at hlabel
  exact Attributes.alike_iff.mpr hlabel

mutual

/-- What can be seen of a tree cut down is what is cut down of what can be seen. -/
theorem cut_sight (ds : List String) : (t : Rose Attributes) →
    t.cut.map (Attributes.sight ds) =
      (t.map (Attributes.sight ds)).cut.map (Attributes.sight ds)
  | .node a ts => by
      have halike := Attributes.sight_alike ds a
      have hdefect : ({ a.sight ds with defect := none } : Attributes).sight ds =
          ({ a with defect := none } : Attributes).sight ds :=
        Attributes.alike_iff.mp { halike with defect_eq := rfl }
      have htwice : mapAll (Attributes.sight ds) (mapAll (Attributes.sight ds) ts) =
          mapAll (Attributes.sight ds) ts :=
        mapAll_mapAll_of_eq ts fun a _ => Attributes.sight_sight ds a
      rw [cut, map, cut, halike.isReference_eq, halike.isCyclical_eq]
      split
      · rw [map, map, hdefect]
        split
        · rw [htwice]
        · rfl
      · rw [map, map, Attributes.sight_sight, cutAll_sight ds ts]

theorem cutAll_sight (ds : List String) : (ts : List (Rose Attributes)) →
    mapAll (Attributes.sight ds) (cutAll ts) =
      mapAll (Attributes.sight ds) (cutAll (mapAll (Attributes.sight ds) ts))
  | [] => rfl
  | t :: ts => by
      rw [cutAll, mapAll, mapAll, cutAll, mapAll, cut_sight ds t, cutAll_sight ds ts]

end

theorem definition_sight (ds : List String) (t : Rose Attributes) :
    t.definition.map (Attributes.sight ds) =
      (t.map (Attributes.sight ds)).definition.map (Attributes.sight ds) := by
  obtain ⟨a, ts⟩ := t
  rw [definition, map, map, definition, map, ← cutAll_sight ds ts,
    Attributes.alike_iff.mp (Attributes.sight_alike ds a).definition]

end Rose

/-! ## Registries alike -/

section Registries

variable {ds : List String} {R R' : List (Rose Attributes)} {t t' : Rose Attributes}

theorem defined_sight (ds : List String) {n : String} :
    Defined (R.map (Rose.map (Attributes.sight ds))) n ↔ Defined R n := by
  unfold Defined
  simp only [List.mem_map, exists_exists_and_eq_and, Rose.label_map]
  exact Iff.rfl

/-- A registry shows no more after a step than what could be seen before. -/
theorem record_sight
    (hR : R.map (Rose.map (Attributes.sight ds)) = R'.map (Rose.map (Attributes.sight ds)))
    (ht : t.map (Attributes.sight ds) = t'.map (Attributes.sight ds)) :
    (record R t).map (Rose.map (Attributes.sight ds)) =
      (record R' t').map (Rose.map (Attributes.sight ds)) := by
  have hdefined : ∀ n, Defined R n ↔ Defined R' n := fun n => by
    rw [← defined_sight ds, hR, defined_sight]
  unfold record
  rw [(Rose.alike_label ht).defines?_eq]
  split
  · exact hR
  · rename_i n _
    simp only [hdefined n]
    split
    · exact hR
    · rw [List.map_append, List.map_append, hR, List.map_singleton, List.map_singleton,
        Rose.definition_sight, ht, ← Rose.definition_sight]

theorem recordAll_sight {fs gs : List Finished}
    (h : List.Forall₂ (fun f g : Finished => f.tree.map (Attributes.sight ds) =
      g.tree.map (Attributes.sight ds)) fs gs) : ∀ {R R' : List (Rose Attributes)},
    R.map (Rose.map (Attributes.sight ds)) = R'.map (Rose.map (Attributes.sight ds)) →
      (recordAll R fs).map (Rose.map (Attributes.sight ds)) =
        (recordAll R' gs).map (Rose.map (Attributes.sight ds)) := by
  induction h with
  | nil => exact fun hR => hR
  | cons hfg _ ih => exact fun hR => ih (record_sight hR hfg)

end Registries

end TypeOutline
