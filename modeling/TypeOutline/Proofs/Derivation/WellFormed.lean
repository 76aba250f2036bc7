import TypeOutline.Proofs.Derivation.Nodes

/-!
# Well-formed schemas

Every node below the tops of a derived schema is whole: it failed and has
no children, or it has as many as its generic type asks for
(`derive?_wellFormed`). A level may arrive on a node that failed before,
or on one that a wrapper has written on; it leaves the node in one of
these two states in any case, since it looks at the defect before it gives
the node members. Below a definition references are whole without any
children.
-/

namespace TypeOutline

open Relation

/-- A level without members is an atomic value, or of a kind that no dialect can describe. -/
def Layer.HasPlainScalar (l : Layer) : Prop :=
  ∀ kind, l.shape = .scalar kind → (Generic.ofKind kind).category = .basic
    ∨ (Generic.ofKind kind).category = .known ∨ (Generic.ofKind kind).category = .invalid

namespace Attributes

/-- The generic type of the node asks for this number of members. -/
def Admits (a : Attributes) (members : Nat) : Prop :=
  (a.generic.isBasic = true ∨ a.generic = .dateTime) ∧ members = 0
    ∨ a.generic = .list ∧ members = 1
    ∨ a.generic = .struct ∧ 0 < members

/-- A node that did not fail has the members that its generic type asks for. -/
def IsWhole (a : Attributes) (members : Nat) : Prop := a.defect = none → a.Admits members

theorem IsWhole.of_defect {a : Attributes} {members : Nat} (h : ¬ a.defect = none) :
    a.IsWhole members :=
  fun hd => absurd hd h

theorem generic_settleScalar (a : Attributes) (kind : Kind) :
    (a.settleScalar kind).generic = a.generic := by
  unfold settleScalar
  split <;> rfl

theorem admits_scalar {a : Attributes} {kind : Kind} (ha : a.generic = .ofKind kind)
    (hkind : (Generic.ofKind kind).category = .basic
      ∨ (Generic.ofKind kind).category = .known) : a.Admits 0 := by
  left
  refine ⟨?_, rfl⟩
  rw [ha]
  rcases hkind with h | h
  · exact .inl (beq_iff_eq.mpr h)
  · right
    revert h
    cases kind <;> decide

end Attributes

open Attributes

theorem length_markRepeated : ∀ (before : Option String) (ms : List Schema.Member),
    (Schema.markRepeated before ms).length = ms.length
  | _, [] => rfl
  | _, m :: ms => congrArg (· + 1) (length_markRepeated (some m.name) ms)

theorem length_members (entries : List (String × Value)) :
    (Schema.members entries).length = entries.length := by
  rw [Schema.members, length_markRepeated, List.length_mergeSort, List.length_map]

/-! ## One level -/

/-- On a node of its generic type a shape has as many members as that asks for, or it fails. -/
theorem obeys_isWhole {a : Attributes} {shape : Shape Value}
    (ha : a.generic = .ofKind shape.kind) (hsupported : shape.kind ≠ .nil)
    (hscalar : ∀ kind, shape = .scalar kind → (Generic.ofKind kind).category = .basic
      ∨ (Generic.ofKind kind).category = .known) : (shape.content a).Obeys IsWhole := by
  cases shape with
  | scalar kind =>
      refine fun _ => admits_scalar ?_ (hscalar kind rfl)
      rw [generic_settleScalar]
      exact ha
  | list fixed elements zero =>
      have hlist : a.generic = .list := by
        rw [ha]
        cases fixed <;> rfl
      dsimp only [Shape.content]
      split
      · rename_i hd
        exact .of_defect (Option.isSome_iff_ne_none.mp hd)
      · split
        · exact fun _ => .inr (.inl ⟨hlist, rfl⟩)
        · exact ⟨fun _ => .inr (.inl ⟨hlist, rfl⟩), fun _ => .of_defect (Option.some_ne_none _)⟩
  | record fields =>
      dsimp only [Shape.content]
      split
      · rename_i hd
        exact .of_defect (Option.isSome_iff_ne_none.mp hd)
      · split
        · exact .of_defect (Option.some_ne_none _)
        · split
          · exact .of_defect (Option.some_ne_none _)
          · rename_i hne
            refine fun _ => .inr (.inr ⟨ha, ?_⟩)
            rw [List.length_map]
            exact List.length_pos_of_ne_nil fun h => hne (List.isEmpty_iff.mpr h)
  | map key keyType entries =>
      rw [Shape.content]
      split
      · rename_i hd
        exact .of_defect (Option.isSome_iff_ne_none.mp hd)
      · split
        · exact .of_defect (Option.some_ne_none _)
        · split
          · exact .of_defect (Option.some_ne_none _)
          · rename_i hne
            refine fun _ => .inr (.inr ⟨ha, ?_⟩)
            rw [List.length_map, length_members]
            exact List.length_pos_of_ne_nil fun h => hne (List.isEmpty_iff.mpr h)
  | slot target =>
      cases target with
      | none => exact .of_defect (Option.some_ne_none _)
      | some v => trivial
  | pointer target zero =>
      dsimp only [Shape.content]
      split
      · rename_i hd
        exact .of_defect (Option.isSome_iff_ne_none.mp hd)
      · trivial
  | nil => exact absurd rfl hsupported

theorem defect_head_of_refused {l : Layer} {top : Bool} {above : Finset String}
    (h : ∀ name, l.ruling top above ≠ .enters name) (a : Attributes) :
    (a.head l.shape.kind (l.ruling top above)).defect ≠ none := by
  cases hr : l.ruling top above with
  | unsupported => exact fun hd => nomatch hd
  | misplaced => exact fun hd => nomatch hd
  | cycle name => exact fun hd => nomatch hd
  | enters name => exact absurd hr (h name)

theorem kept_isWhole : Kept IsWhole Layer.HasPlainScalar where
  refused _ _ hr := .of_defect (defect_head_of_refused hr _)
  entered {a l name} hl _ hsupported := by
    have hkind : (Generic.ofKind l.shape.kind).category ≠ .invalid :=
      beq_eq_false_iff_ne.mp hsupported
    refine obeys_isWhole (generic_head a _ _) ?_ ?_
    · intro hnil
      rw [hnil] at hkind
      exact hkind rfl
    · intro kind hscalar
      rw [hscalar] at hkind
      rcases hl kind hscalar with h | h | h
      · exact .inl h
      · exact .inr h
      · exact absurd h hkind

/-! ## All nodes of a schema -/

/-- The node stands below a definition and refers to a named type. -/
def Schema.IsCutReference (s : Schema) (k : NodeId) : Prop :=
  TransGen s.Owns s.typeRefs k ∧ ¬ s.Owns s.typeRefs k ∧ (s.attrs k).typeRef ≠ ""

section Nodes

variable {types : Types} {v : Value} {s : Schema} {o : Outline} {k : NodeId}

/-- A node below a top is a node of the value's tree, a definition, or below a definition. -/
theorem below_tops_cases (hk : TransGen s.Owns s.root k ∨ TransGen s.Owns s.typeRefs k) :
    TransGen s.Owns s.root k ∨ k ∈ s.children s.typeRefs
      ∨ ∃ d ∈ s.children s.typeRefs, TransGen s.Owns d k := by
  rcases hk with hk | hk
  · exact .inl hk
  · obtain ⟨d, hd, hdk⟩ := TransGen.head'_iff.mp hk
    rcases reflTransGen_iff_eq_or_transGen.mp hdk with rfl | hdk
    · exact .inr (.inl hd)
    · exact .inr (.inr ⟨d, hd, hdk⟩)

/-- What holds of all nodes of the outline, and still does when they are
made definitions or lose their defect, holds of the nodes of the schema. -/
theorem forall_below_tops {F : Attributes → Prop} (hs : s.Linked) (ho : s.Renders o)
    (houtlines : Outlines types (.start v) o) (hshown : ∀ a, o.Shows a → F a)
    (hdefinition : ∀ a, F a → F a.definition) (hcut : ∀ a, F a → F { a with defect := none })
    (hk : TransGen s.Owns s.root k ∨ TransGen s.Owns s.typeRefs k) : F (s.attrs k) := by
  have hbare := every_outlines kept_failsBare houtlines fun _ _ _ _ => trivial
  rw [← Schema.label_tree]
  rcases below_tops_cases hk with hk | hk | ⟨d, hd, hk⟩
  · exact hshown _ (.inl (Rose.label_mem_of_mem_subtrees (tree_mem_of_below_root hs ho hk)))
  · obtain ⟨f, hf, n, -, htree⟩ := exists_finished_of_definition hs ho hk
    rw [htree, Rose.label_definition]
    have hmem := Rose.label_mem_of_mem_subtrees (Rose.self_mem_subtrees f.tree)
    exact hdefinition _ (hshown _ (.inr ⟨f, hf, hmem⟩))
  · obtain ⟨f, hf, w, hw, hcutOf⟩ := exists_cutOf_of_below_definition hs ho hbare hd hk
    have hw' := hshown _ (.inr ⟨f, hf, Rose.label_mem_of_mem_subtrees hw⟩)
    generalize s.tree k = u at hcutOf
    cases hcutOf with
    | kept _ _ => exact hw'
    | reference _ => exact hcut _ hw'

/-- In a derived schema all dialects agree on the type that a node refers to. -/
theorem consistent_of_below_tops (hs : s.Linked) (ho : s.Renders o)
    (houtlines : Outlines types (.start v) o)
    (hk : TransGen s.Owns s.root k ∨ TransGen s.Owns s.typeRefs k) :
    (s.attrs k).Consistent := by
  have hshown : ∀ a, o.Shows a → a.Consistent := by
    obtain ⟨depth, houtline⟩ := houtlines
    exact fun a ha => (traced_outline types depth houtline (blank_new "").consistent a ha).1
  exact forall_below_tops hs ho houtlines hshown (fun a _ => consistent_definition a)
    (fun a h => ⟨h.typeRef_eq, h.others⟩) hk

/-- A derived node that failed has no children. -/
theorem failsBare_of_below_tops (hs : s.Linked) (ho : s.Renders o)
    (houtlines : Outlines types (.start v) o)
    (hk : TransGen s.Owns s.root k ∨ TransGen s.Owns s.typeRefs k) :
    (s.attrs k).FailsBare (s.children k).length := by
  have hbare := every_outlines kept_failsBare houtlines fun _ _ _ _ => trivial
  rw [← Schema.label_tree, ← hs.length_children_tree hk]
  rcases below_tops_cases hk with hk | hk | ⟨d, hd, hk⟩
  · exact hbare.1 _ (tree_mem_of_below_root hs ho hk)
  · obtain ⟨f, hf, n, -, htree⟩ := exists_finished_of_definition hs ho hk
    rw [htree, Rose.label_definition, Rose.children_definition, Rose.length_cutAll]
    exact hbare.2 f hf _ (Rose.self_mem_subtrees _)
  · obtain ⟨f, hf, w, hw, hcut⟩ := exists_cutOf_of_below_definition hs ho hbare hd hk
    have hw' := hbare.2 f hf w hw
    generalize s.tree k = u at hcut
    cases hcut with
    | kept _ hlength =>
        intro hd
        exact hlength.trans (hw' hd)
    | reference _ => exact fun hd => nomatch hd

/-- A derived node that did not fail is whole; a reference below a definition has no children. -/
theorem isWhole_of_below_tops (hs : s.Linked) (ho : s.Renders o)
    (houtlines : Outlines types (.start v) o) (hv : v.EveryLevel types Layer.HasPlainScalar)
    (hk : TransGen s.Owns s.root k ∨ TransGen s.Owns s.typeRefs k) :
    (s.IsCutReference k → s.children k = [])
      ∧ (¬ s.IsCutReference k → (s.attrs k).IsWhole (s.children k).length) := by
  have hbare := every_outlines kept_failsBare houtlines fun _ _ _ _ => trivial
  have hwhole := every_outlines kept_isWhole houtlines hv
  have htype := (consistent_of_below_tops hs ho houtlines hk).typeRef_eq
  have hlength := hs.length_children_tree hk
  have hlabel := s.label_tree k
  rcases below_tops_cases hk with hroot | hdef | ⟨d, hd, hbelow⟩
  · refine ⟨fun hcut => ?_, fun _ => ?_⟩
    · exact absurd hcut.1.to_reflTransGen (hs.not_reaches_of_reaches hroot.to_reflTransGen)
    · rw [← hlabel, ← hlength]
      exact hwhole.1 _ (tree_mem_of_below_root hs ho hroot)
  · refine ⟨fun hcut => absurd hdef hcut.2.1, fun _ => ?_⟩
    obtain ⟨f, hf, n, -, htree⟩ := exists_finished_of_definition hs ho hdef
    rw [← hlabel, ← hlength, htree, Rose.label_definition, Rose.children_definition,
      Rose.length_cutAll]
    exact hwhole.2 f hf _ (Rose.self_mem_subtrees _)
  · have hnot := hs.not_owns_of_transGen
      (hs.not_transGen_of_parent?_none hs.parent?_typeRefs) hd hbelow
    obtain ⟨f, hf, w, hw, hcut⟩ := exists_cutOf_of_below_definition hs ho hbare hd hbelow
    have hw' := hwhole.2 f hf w hw
    generalize s.tree k = u at hcut hlength hlabel
    cases hcut with
    | @kept a ts us ha hus =>
        obtain rfl : a = s.attrs k := hlabel
        have hempty : (s.attrs k).typeRef = "" := by
          rw [htype]
          exact of_not_not fun hne => Bool.eq_false_iff.mp ha (bne_iff_ne.mpr hne)
        refine ⟨fun hcut => absurd hempty hcut.2.2, fun _ => ?_⟩
        rw [← hlength, show (Rose.node (s.attrs k) us).children.length = ts.length from hus]
        exact hw'
    | @reference a ts ha =>
        have hne : (s.attrs k).typeRef ≠ "" := by
          rw [htype, ← hlabel]
          exact bne_iff_ne.mp ha
        exact ⟨fun _ => List.eq_nil_of_length_eq_zero hlength.symm,
          fun hnocut => absurd ⟨hk.resolve_left fun hroot =>
            hs.not_reaches_of_reaches hroot.to_reflTransGen (.head hd hbelow.to_reflTransGen),
            hnot, hne⟩ hnocut⟩

end Nodes

/-- Below the tops of every derived schema a node that failed has no children, a node that did not
is a leaf of a basic type or a date-time, a list with one child or a struct with some, unless it is
a reference below a definition, which has none; and the type that a node refers to is the one that
its native block says, in every dialect. -/
theorem derive?_wellFormed {types : Types} {v : Value} {s : Schema} (e : Engine)
    (hv : v.EveryLevel types Layer.HasPlainScalar) (hs : (e.derive? types v).1 = some s) :
    ∀ k, TransGen s.Owns s.root k ∨ TransGen s.Owns s.typeRefs k →
      ((s.attrs k).defect.isSome = true → s.children k = [])
        ∧ (s.IsCutReference k → s.children k = [])
        ∧ (¬ s.IsCutReference k → (s.attrs k).defect = none →
          ((s.attrs k).generic.isBasic = true ∨ (s.attrs k).generic = .dateTime)
              ∧ s.children k = []
            ∨ (s.attrs k).generic = .list ∧ (∃ c, s.children k = [c])
            ∨ (s.attrs k).generic = .struct ∧ s.children k ≠ [])
        ∧ (s.attrs k).typeRef = (s.attrs k).native.typeRef
        ∧ ∀ dialect, ((s.attrs k).view dialect).typeRef = (s.attrs k).typeRef := by
  intro k hk
  obtain ⟨o, houtlines, ho⟩ := exists_outlines_of_derive? hs
  have hlinked : s.Linked := linked_of_derive? hs
  have hconsistent := consistent_of_below_tops hlinked ho houtlines hk
  obtain ⟨hcut, hwhole⟩ := isWhole_of_below_tops hlinked ho houtlines hv hk
  refine ⟨fun hd => ?_, hcut, fun hnot hd => ?_, hconsistent.typeRef_eq, fun dialect => ?_⟩
  · exact List.eq_nil_of_length_eq_zero (failsBare_of_below_tops hlinked ho houtlines hk hd)
  · rcases hwhole hnot hd with ⟨hgeneric, h⟩ | ⟨hgeneric, h⟩ | ⟨hgeneric, h⟩
    · exact .inl ⟨hgeneric, List.eq_nil_of_length_eq_zero h⟩
    · exact .inr (.inl ⟨hgeneric, List.length_eq_one_iff.mp h⟩)
    · exact .inr (.inr ⟨hgeneric, List.ne_nil_of_length_pos h⟩)
  · rw [hconsistent.view_typeRef, hconsistent.typeRef_eq]

theorem hasPlainScalar_chain : chain.EveryLevel chainTypes Layer.HasPlainScalar := by
  intro w hw l hl kind hkind
  rcases mem_of_unfolds_chain hw with rfl | rfl
  · cases hl
    cases hkind
  · cases hl
    cases hkind

/-- The reference that closes the cycle of a chain stands in the definition without children. -/
theorem derive?_wellFormed_chain : chain.EveryLevel chainTypes Layer.HasPlainScalar
    ∧ ∃ s d k, (({} : Engine).derive? chainTypes chain).1 = some s
      ∧ s.children s.typeRefs = [d] ∧ (s.attrs d).generic = .struct ∧ s.children d = [k]
      ∧ s.IsCutReference k ∧ s.children k = [] := by
  have hderive : (derive? chainTypes chain).map (fun s => (s.children s.typeRefs,
      (s.attrs 4).generic, s.children 4, (s.attrs 5).typeRef)) =
      some ([4], .struct, [5], "Node") := by
    decide +kernel
  obtain ⟨s, hs, hnodes⟩ := Option.map_eq_some_iff.mp hderive
  obtain ⟨hrefs, hgeneric, hdef, hname⟩ : s.children s.typeRefs = [4]
      ∧ (s.attrs 4).generic = .struct ∧ s.children 4 = [5] ∧ (s.attrs 5).typeRef = "Node" := by
    simpa using hnodes
  have hfour : s.Owns s.typeRefs 4 := by simp [Schema.Owns, hrefs]
  have hfive : s.Owns 4 5 := by simp [Schema.Owns, hdef]
  have hcut : s.IsCutReference 5 := by
    refine ⟨.tail (.single hfour) hfive, ?_, ?_⟩
    · simp [Schema.Owns, hrefs]
    · simp [hname]
  have hwell := derive?_wellFormed {} hasPlainScalar_chain hs 5 (.inr hcut.1)
  exact ⟨hasPlainScalar_chain, s, 4, 5, hs, hrefs, hgeneric, hdef, hcut, hwell.2.1 hcut⟩

end TypeOutline
