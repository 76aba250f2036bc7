import TypeOutline.Proofs.Derivation.WellFormed

/-!
# The registry of a derived schema

A definition is made under a name that has none yet, so the definitions
have distinct names (`nodup_recordAll`). It keeps nothing of what was said
about the position of its type, and what is below it are references
without children or nodes that refer to nothing. A node that closes a
cycle does so under the name that it refers to, so below a definition it
has lost its defect, and none is left under `TypeRefs`
(`derive?_registry`).
-/

namespace TypeOutline

open Relation

/-- The name of the level, if it declares one, is not empty. -/
def Layer.HasProperName (l : Layer) : Prop := l.typeName ≠ some ""

namespace Attributes

/-- What the node of a definition says: its name, and nothing about a position. -/
structure IsDefinition (a : Attributes) : Prop where
  name_ne : a.name ≠ ""
  typeRef_eq : a.typeRef = ""
  override_typeRef_eq : ∀ dialect b, a.override? dialect = some b → b.typeRef = ""
  nullable_eq : a.nullable = false
  isExcluded_eq : ∀ dialect, a.isExcluded dialect = false
  isCyclical_eq : a.isCyclical = false

/-- A node that closes a cycle refers to the type that it closes it with. -/
def NamesCycle (a : Attributes) (_ : Nat) : Prop := a.isCyclical = true → a.isReference = true

theorem isDefinition_definition {a : Attributes} {n : String} (h : a.defines? = some n) :
    a.definition.IsDefinition where
  name_ne := by
    obtain ⟨-, -, hn⟩ := defines?_eq_some.mp h
    rw [definition, hn]
    exact defines?_ne_empty h
  typeRef_eq := rfl
  override_typeRef_eq _ _ hb := (override?_definition hb).1
  nullable_eq := rfl
  isExcluded_eq dialect := by
    rw [isExcluded, view]
    cases hb : a.definition.override? dialect with
    | none => rfl
    | some b =>
        obtain ⟨-, hinclusion⟩ := override?_definition hb
        dsimp only
        rw [hinclusion]
        rfl
  isCyclical_eq := (defines?_eq_some.mp h).2.1

theorem namesCycle_of_defect {a : Attributes} (h : a.defect ≠ some .cyclicalReference)
    (members : Nat) : a.NamesCycle members :=
  fun hcyc => absurd (beq_iff_eq.mp hcyc) h

end Attributes

open Attributes

/-! ## Closed cycles -/

theorem kept_namesCycle : Kept NamesCycle Layer.HasProperName where
  refused {a l top above} hl ha _ := by
    by_cases hcycle : ∃ name, l.ruling top above = .cycle name
    · obtain ⟨name, hruling⟩ := hcycle
      obtain ⟨-, -, hdeclares, -⟩ := ruling_eq_cycle.mp hruling
      have hname : l.typeName = some name := (Option.filter_eq_some_iff.mp hdeclares).1
      intro _
      rw [isReference, typeRef_head, hruling, Ruling.name?, Option.getD_some]
      exact bne_iff_ne.mpr fun h => hl (h ▸ hname)
    · exact namesCycle_of_defect (fun h => hcycle ((defect_head_eq_cyclical ha).mp h)) 0
  entered {a l name} _ ha _ := by
    rw [← defect_head_enters a l.shape.kind name] at ha
    refine Content.obeys_of_defect l.shape ha (fun _ h => namesCycle_of_defect h 0)
      fun b members hdefect => namesCycle_of_defect (fun h => ?_) members
    cases hdefect.symm.trans h

/-! ## The names of definitions -/

theorem nodup_record {R : List (Rose Attributes)} (h : (R.map (·.label.name)).Nodup)
    (t : Rose Attributes) : ((record R t).map (·.label.name)).Nodup := by
  unfold record
  split
  · exact h
  · rename_i n hn
    split
    · exact h
    · rename_i hfresh
      rw [List.map_append, List.map_singleton, name_definition hn]
      refine List.nodup_append.mpr ⟨h, List.nodup_singleton n, ?_⟩
      intro x hx y hy hxy
      obtain ⟨d, hd, hdx⟩ := List.mem_map.mp hx
      exact hfresh ⟨d, hd, hdx.trans (hxy.trans (List.mem_singleton.mp hy))⟩

theorem nodup_recordAll {R : List (Rose Attributes)} (h : (R.map (·.label.name)).Nodup)
    (fs : List Finished) : ((recordAll R fs).map (·.label.name)).Nodup := by
  induction fs generalizing R with
  | nil => exact h
  | cons f fs ih => exact ih (nodup_record h f.tree)

section Registry

variable {types : Types} {v : Value} {s : Schema} {o : Outline} {d k : NodeId}

theorem nodup_names_of_definitions (hs : s.Linked) (ho : s.Renders o) :
    ((s.children s.typeRefs).map fun d => (s.attrs d).name).Nodup := by
  have hnames : (s.children s.typeRefs).map (fun d => (s.attrs d).name) =
      ((s.children s.typeRefs).map s.tree).map (·.label.name) := by
    rw [List.map_map]
    exact List.map_congr_left fun d _ => by rw [Function.comp_apply, Schema.label_tree]
  rw [hnames, map_tree_definitions hs ho]
  exact nodup_recordAll (R := []) List.nodup_nil o.finished

theorem isDefinition_of_mem_definitions (hs : s.Linked) (ho : s.Renders o)
    (hd : d ∈ s.children s.typeRefs) : (s.attrs d).IsDefinition := by
  obtain ⟨f, -, n, hn, htree⟩ := exists_finished_of_definition hs ho hd
  rw [← Schema.label_tree, htree, Rose.label_definition]
  exact isDefinition_definition hn

/-- What refers to a type below a definition is cut down: it has neither children nor a defect. -/
theorem cut_of_refersTo (hs : s.Linked) (ho : s.Renders o) (houtlines : Outlines types (.start v) o)
    (hd : d ∈ s.children s.typeRefs) (hk : TransGen s.Owns d k) {n : String}
    (hn : (s.attrs k).RefersTo n) : s.children k = [] ∧ (s.attrs k).defect = none := by
  have hbare := every_outlines kept_failsBare houtlines fun _ _ _ _ => trivial
  have hbelow : TransGen s.Owns s.typeRefs k := .head hd hk
  have htype := (consistent_of_below_tops hs ho houtlines (.inr hbelow)).typeRef_of_refersTo hn
  have hlength := hs.length_children_tree (.inr hbelow)
  have hlabel := s.label_tree k
  obtain ⟨f, -, w, -, hcut⟩ := exists_cutOf_of_below_definition hs ho hbare hd hk
  generalize s.tree k = u at hcut hlength hlabel
  cases hcut with
  | @kept a ts us ha _ =>
      obtain rfl : a = s.attrs k := hlabel
      rw [isReference, htype] at ha
      exact absurd (bne_eq_false_iff_eq.mp ha) hn.1
  | @reference a ts _ =>
      rw [← hlabel]
      exact ⟨List.eq_nil_of_length_eq_zero hlength.symm, rfl⟩

theorem isCyclical_below_definition (hs : s.Linked) (ho : s.Renders o)
    (houtlines : Outlines types (.start v) o) (hv : v.EveryLevel types Layer.HasProperName)
    (hd : d ∈ s.children s.typeRefs) (hk : TransGen s.Owns d k) :
    (s.attrs k).isCyclical = false := by
  have hbare := every_outlines kept_failsBare houtlines fun _ _ _ _ => trivial
  have hnames := every_outlines kept_namesCycle houtlines hv
  obtain ⟨f, hf, w, hw, hcut⟩ := exists_cutOf_of_below_definition hs ho hbare hd hk
  have hw' := hnames.2 f hf w hw
  rw [← Schema.label_tree]
  generalize s.tree k = u at hcut
  cases hcut with
  | kept ha _ =>
      refine Bool.eq_false_iff.mpr fun hcyc => ?_
      exact absurd (hw' hcyc) (Bool.eq_false_iff.mp ha)
  | reference _ => rfl

end Registry

/-- The definitions of a derived schema have distinct names that are not empty, and say nothing
about a position. What is below them and refers to a type has neither children nor a defect. And no
node under `TypeRefs` closes a cycle. -/
theorem derive?_registry {types : Types} {v : Value} {s : Schema} (e : Engine)
    (hv : v.EveryLevel types Layer.HasProperName) (hs : (e.derive? types v).1 = some s) :
    ((s.children s.typeRefs).map fun d => (s.attrs d).name).Nodup
      ∧ (∀ d ∈ s.children s.typeRefs, (s.attrs d).IsDefinition)
      ∧ (∀ d ∈ s.children s.typeRefs, ∀ k, TransGen s.Owns d k →
        ∀ n, (s.attrs k).RefersTo n → s.children k = [] ∧ (s.attrs k).defect = none)
      ∧ ∀ k, TransGen s.Owns s.typeRefs k → (s.attrs k).isCyclical = false := by
  obtain ⟨o, houtlines, ho⟩ := exists_outlines_of_derive? hs
  have hlinked : s.Linked := linked_of_derive? hs
  have hdefinition := fun d hd => isDefinition_of_mem_definitions (d := d) hlinked ho hd
  refine ⟨nodup_names_of_definitions hlinked ho, hdefinition,
    fun d hd k hk n hn => cut_of_refersTo hlinked ho houtlines hd hk hn, fun k hk => ?_⟩
  obtain ⟨d, hd, hdk⟩ := TransGen.head'_iff.mp hk
  rcases reflTransGen_iff_eq_or_transGen.mp hdk with rfl | hdk
  · exact (hdefinition _ hd).isCyclical_eq
  · exact isCyclical_below_definition hlinked ho houtlines hv hd hdk

theorem hasProperName_chain : chain.EveryLevel chainTypes Layer.HasProperName := by
  intro w hw l hl
  rcases mem_of_unfolds_chain hw with rfl | rfl
  · cases hl
    exact fun h => nomatch h
  · cases hl
    exact fun h => nomatch h

/-- The node that closes the cycle of a chain keeps its defect under `Root` and loses it under
`TypeRefs`. -/
theorem derive?_registry_chain : chain.EveryLevel chainTypes Layer.HasProperName
    ∧ ∃ s k d k', (({} : Engine).derive? chainTypes chain).1 = some s
      ∧ TransGen s.Owns s.root k ∧ (s.attrs k).isCyclical = true
      ∧ s.children s.typeRefs = [d] ∧ (s.attrs d).IsDefinition ∧ s.children d = [k']
      ∧ (s.attrs k').RefersTo "Node" ∧ (s.attrs k').defect = none := by
  have hderive : (derive? chainTypes chain).map (fun s =>
      ([s.children s.root, s.children 1, s.children s.typeRefs, s.children 4],
        (s.attrs 2).isCyclical, (s.attrs 5).typeRef)) =
      some ([[1], [2], [4], [5]], true, "Node") := by
    decide +kernel
  obtain ⟨s, hs, hnodes⟩ := Option.map_eq_some_iff.mp hderive
  obtain ⟨⟨hroot, hone, hrefs, hdef⟩, hcyc, hname⟩ : (s.children s.root = [1]
      ∧ s.children 1 = [2] ∧ s.children s.typeRefs = [4] ∧ s.children 4 = [5])
      ∧ (s.attrs 2).isCyclical = true ∧ (s.attrs 5).typeRef = "Node" := by
    simpa using hnodes
  have hvalue : s.Owns s.root 1 := by simp [Schema.Owns, hroot]
  have hnext : s.Owns 1 2 := by simp [Schema.Owns, hone]
  have hfive : s.Owns 4 5 := by simp [Schema.Owns, hdef]
  have hmem : 4 ∈ s.children s.typeRefs := by simp [hrefs]
  have hrefers : (s.attrs 5).RefersTo "Node" := ⟨by decide, .inl hname⟩
  obtain ⟨-, hdefinition, hcut, -⟩ := derive?_registry {} hasProperName_chain hs
  exact ⟨hasProperName_chain, s, 2, 4, 5, hs, .tail (.single hvalue) hnext, hcyc, hrefs,
    hdefinition 4 hmem, hdef, hrefers, (hcut 4 hmem 5 (.single hfive) "Node" hrefers).2⟩

end TypeOutline
